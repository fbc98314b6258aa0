import Monolith.Proofs.Flattening.FlattenedModule
import Monolith.Proofs.Globals.RefusedOperands

/-! # Which pass fails

Each part of flattening has its own reasons to reject a module. So where flattening fails, the
reason tells which parts have succeeded before.
-/

namespace Monolith

variable {allowed : Rejection → Prop} {α : Type} {m : Module} {P : Module → Prop}

inductive Rejection.Origin where
  | input
  | plan
  | inlining
  | globals
  | result
  deriving DecidableEq

/-- The part of flattening that rejects a module for the reason. -/
def Rejection.origin : Rejection → Origin
  | .malformedInput .. => .input
  | .noRoot .. | .rootIsDeclaration .. | .libraryRoutine .. | .recursiveInline .. => .plan
  | .arityMismatch .. | .varArgInline .. => .inlining
  | .unownedGlobal .. | .sharedGlobal .. | .unsupportedConstantUse .. => .globals
  | .malformedModule .. => .result

def Rejection.IsUnsupported (reason : Rejection) : Prop :=
  ∃ global function, reason = .unsupportedConstantUse global function

/-- The failure is a rejection for a reason of the given kind. -/
def Failure.Only (allowed : Rejection → Prop) : Failure → Prop
  | .rejected reason => allowed reason
  | .fault _ | .budgetExhausted => False

/-- If the failure is a rejection, it is one for a reason of the given kind. -/
def Failure.Within (allowed : Rejection → Prop) : Failure → Prop
  | .rejected reason => allowed reason
  | .fault _ | .budgetExhausted => True

/-- The computation rejects a module only for reasons of the given kind. -/
abbrev RejectsFor {α : Type} (allowed : Rejection → Prop) (x : Except Failure α) : Prop :=
  FailsFor (Failure.Within allowed) x

/-- The computation fails only by rejecting a module for reasons of the given parts. -/
abbrev FailsIn {α : Type} (origins : List Rejection.Origin) (x : Except Failure α) : Prop :=
  FailsFor (Failure.Only (·.origin ∈ origins)) x

abbrev RejectsIn {α : Type} (origins : List Rejection.Origin) (x : Except Failure α) : Prop :=
  RejectsFor (·.origin ∈ origins) x

/-- What faults does not reject. -/
theorem RejectsFor.faulting (x : Except Fault α) : RejectsFor allowed (faulting x) := by
  cases x with
  | ok a => exact .ok a
  | error fault => exact .error trivial

theorem Failure.Only.within {failure : Failure} (h : failure.Only allowed) :
    failure.Within allowed := by
  cases failure with
  | rejected reason => exact h
  | _ => trivial

theorem FailsFor.rejectsFor {x : Except Failure α} (h : FailsFor (Failure.Only allowed) x) :
    RejectsFor allowed x :=
  h.mono fun _ hfailure => hfailure.within

theorem RejectsFor.mono {more : Rejection → Prop} {x : Except Failure α} (h : RejectsFor allowed x)
    (hmore : ∀ reason, allowed reason → more reason) : RejectsFor more x := by
  refine FailsFor.mono h fun failure hfailure => ?_
  cases failure with
  | rejected reason => exact hmore reason hfailure
  | _ => trivial

theorem RejectsIn.mono {origins more : List Rejection.Origin} {x : Except Failure α}
    (h : RejectsIn origins x) (hmore : origins ⊆ more) : RejectsIn more x :=
  RejectsFor.mono h fun _ hreason => hmore hreason

/-! ## Inlining -/

namespace Plan

/-- A plan is refused for a reason of planning. -/
theorem compute_fails (config : Config) (m : Module) (graph : CallGraph) :
    FailsIn [.plan] (compute config m graph) := by
  unfold compute
  split
  next => exact .reject List.mem_cons_self
  next =>
    split
    next => exact .reject List.mem_cons_self
    next => exact .ok _

theorem validate_fails (plan : Plan) (config : Config) (m : Module) (graph : CallGraph) :
    FailsIn [.plan] (plan.validate config m graph) := by
  unfold validate
  dsimp only
  split
  next => exact .reject List.mem_cons_self
  next =>
    split
    next => exact .reject List.mem_cons_self
    next => exact .ok _

end Plan

theorem Module.inlineCall_rejects (m : Module) (caller : FunctionId) (b : BlockId)
    (index : Nat) : RejectsIn [.inlining] (m.inlineCall caller b index) := by
  have hattempt := m.attempt_inlineCall caller b index
  generalize m.inlineCall caller b index = outcome at hattempt
  cases hattempt with
  | absent | inlined => exact .ok _
  | variadic | mismatched => exact .reject List.mem_cons_self
  | faulted => exact .error trivial

namespace Plan

/-- A run of inlining fails as the calls do, or by its budget, as long as the calls keep what
holds at the start. It leaves the module that it has come to. -/
theorem inlineInto_fails {allowed : Aborted Module → Prop} {caller : FunctionId}
    (hbudget : ∀ m, P m → allowed { failure := .budgetExhausted, left := m })
    (hcall : ∀ m b index, P m →
      FailsFor (fun failure => allowed { failure, left := m }) (m.inlineCall caller b index))
    (hkeeps : ∀ {m n b index}, P m → m.inlineCall caller b index = .ok (some n) → P n) (plan : Plan)
    (budget : Nat) (hm : P m) : FailsFor allowed (plan.inlineInto caller budget m) := by
  induction budget generalizing m with
  | zero =>
      unfold inlineInto
      split
      next => exact .ok _
      next => exact .error (hbudget m hm)
  | succ budget ih =>
      unfold inlineInto
      split
      next => exact .ok _
      next b index _ =>
        refine (FailsFor.leaving (hcall m b index hm)).bind_of_ok fun next? hnext => ?_
        rw [leaving_eq_ok] at hnext
        cases next? with
        | none => exact .ok _
        | some next => exact (ih (hkeeps hm hnext)).bind fun _ => .ok _

theorem inlineCalls_fails {allowed : Aborted Module → Prop}
    (hbudget : ∀ m, P m → allowed { failure := .budgetExhausted, left := m })
    (hcall : ∀ m caller b index, P m →
      FailsFor (fun failure => allowed { failure, left := m }) (m.inlineCall caller b index))
    (hkeeps : ∀ {m n caller b index}, P m → m.inlineCall caller b index = .ok (some n) → P n)
    (plan : Plan) (budget : Nat) (hm : P m) : FailsFor allowed (plan.inlineCalls budget m) := by
  refine FailsFor.foldlM_of_ok (P := fun state : Module × Nat => P state.1) ?_ hm
  intro caller _ state hstate
  refine ⟨?_, fun next hnext => ?_⟩
  · exact (inlineInto_fails hbudget (hcall · caller) hkeeps plan _ hstate).bind fun _ => .ok _
  · obtain ⟨last, hlast, hnext⟩ := bind_eq_ok.mp hnext
    obtain rfl := Except.ok.inj hnext
    exact Module.inlineInto_induction hkeeps hstate hlast

theorem inlineAll_rejects (plan : Plan) (budget : Nat) (m : Module) :
    RejectsIn [.inlining] (plan.inlineAll budget m) := by
  refine FailsFor.mapError (inlineCalls_fails (P := fun _ => True) ?_ ?_ ?_ plan budget trivial)
  · exact fun _ _ => trivial
  · exact fun m caller b index _ => m.inlineCall_rejects caller b index
  · exact fun _ _ => trivial

/-- Erasing what was inlined fails only where something is logged, and leaves a module that has
come of the first one by erasing. -/
theorem eraseInlined_fails {allowed : Aborted Module → Prop} {level : LogLevel} (plan : Plan)
    (herase : ∀ id ∈ plan.forced, ∀ m, P m →
      P ((m.replaceFunction id placeholder).eraseFunction id))
    (hlog : ∀ id ∈ plan.forced, ∀ m f, P m →
      (m.replaceFunction id placeholder).function? id = some f →
      FailsFor (fun fault => allowed
        { failure := .fault fault, left := (m.replaceFunction id placeholder).eraseFunction id })
        (logErased level f)) (hm : P m) :
    FailsFor allowed (plan.forced.foldlM (eraseInlined level) m) := by
  refine FailsFor.foldlM_of_ok (P := P) (fun id hid n hn => ⟨?_, fun next hnext => ?_⟩) hm
  · unfold eraseInlined
    dsimp only
    split
    next => exact .ok _
    next f hf => exact .bind (.leaving (.faulting (hlog id hid n f hn hf))) fun _ => .ok _
  · rw [eraseInlined_eq_ok hnext]
    exact herase id hid n hn

/-- No module is rejected while what was inlined is erased. -/
theorem logging_rejects (plan : Plan) (level : LogLevel) (m : Module) :
    FailsFor (fun e => Failure.Within allowed e.failure)
      (plan.forced.foldlM (eraseInlined level) m) :=
  plan.eraseInlined_fails (P := fun _ => True) (fun _ _ _ _ => trivial)
    (fun _ _ _ _ _ _ _ _ => trivial) trivial

end Plan

/-! ## Localization -/

/-- Owners are missing for a reason of the globals. -/
theorem Module.owners_fails (m : Module) : FailsIn [.globals] m.owners := by
  refine .mapM (fun entry => .bind ?_ fun _ => .ok _) _
  unfold owner
  split
  next => exact .reject List.mem_cons_self
  next => exact .ok _
  next => exact .reject List.mem_cons_self

namespace Localized

variable (scope : Localized)

/-- An operand is refused because it mentions a global where it cannot be moved. -/
theorem only_unsupported_of_refusal {os : List Operand} {e : Failure}
    (h : os.findSome? scope.refusal? = some e) : Failure.Only Rejection.IsUnsupported e := by
  obtain ⟨o, _, hrefusal⟩ := List.exists_of_findSome?_eq_some h
  obtain ⟨_, id, _, _, _, _, rfl⟩ := exists_of_refusal hrefusal
  exact ⟨scope.globalName id, scope.function, rfl⟩

theorem expandBlocks_fails (blocks : List Block) (draft : Draft) :
    FailsFor (fun e => Failure.Only Rejection.IsUnsupported e.failure)
      (scope.expandBlocks blocks draft) := by
  intro e h
  apply scope.only_unsupported_of_refusal
  exact (scope.expandBlocks_failsAt blocks draft e.failure).mp (mapError_eq_error.mpr ⟨e, h, rfl⟩)

theorem localizeInto_rejects (f : Function) :
    FailsFor (fun e => Failure.Within Rejection.IsUnsupported e.failure)
      (scope.localizeInto f) := by
  refine .bind (.leaving (RejectsFor.faulting _)) fun prepared => .bind ?_ fun _ => .ok _
  refine .bind (.mapError ?_) fun _ => .leaving (RejectsFor.faulting _)
  exact (scope.expandBlocks_fails prepared.blocks _).mono fun e he => he.within

end Localized

namespace Module

theorem localize_rejects (m : Module) (owners : List (GlobalId × FunctionId)) :
    FailsFor (fun e => Failure.Within Rejection.IsUnsupported e.failure) (m.localize owners) := by
  refine .foldlM (fun state group => .bind (.mapError ?_) fun _ => .ok _) _ _
  unfold localizeGroup
  split
  next => exact .ok _
  next => exact .bind (.mapError (Localized.localizeInto_rejects _ _)) fun _ => .ok _

end Module

/-! ## The passes -/

namespace Pass

variable {pass : Pass} {rest : List Pass} {stage : Stage} {defects : List Defect} {dump : String}

theorem inlining_rejects (config : Config) (budget : Nat) (stage : Stage) :
    RejectsIn [.plan, .inlining] (inlining config budget stage) := by
  rw [inlining_outcome]
  refine (RejectsIn.mono (Plan.compute_fails _ _ _).rejectsFor (by simp)).bind fun plan => ?_
  refine (RejectsIn.mono (plan.validate_fails _ _ _).rejectsFor (by simp)).bind fun _ => ?_
  refine ((plan.inlineAll_rejects _ _).mono (by simp)).bind fun inlined => ?_
  exact .bind (.mapError (plan.logging_rejects _ _)) fun _ => .ok _

theorem localization_rejects (stage : Stage) : RejectsIn [.globals] (localization stage) := by
  rw [localization_outcome]
  refine (Module.owners_fails _).rejectsFor.bind fun owners => .bind ?_ fun _ => .ok _
  refine RejectsFor.mono (Module.localize_rejects _ owners).mapError ?_
  rintro _ ⟨_, _, rfl⟩
  exact List.mem_cons_self

theorem sweeping_fails (stage : Stage) : FailsFor (fun _ => False) (sweeping stage) := .ok _

theorem integrity_rejects (stage : Stage) : RejectsIn [.result] (integrity stage) := by
  rw [integrity_outcome]
  split
  next => exact .ok _
  next => exact (RejectsFor.faulting _).bind fun _ => .reject List.mem_cons_self

/-- Passes reject for the reasons of any of them. -/
theorem runAll_rejects {origins : List Rejection.Origin} (hpass : RejectsIn origins (pass stage))
    (hrest : ∀ next, RejectsIn origins (runAll rest next).1) :
    RejectsIn origins (runAll (pass :: rest) stage).1 := by
  rw [runAll_cons_fst]
  exact FailsFor.bind hpass fun next failure h => hrest next.1 failure (map_eq_error.mp h)

/-- A failure that is not one of the first pass comes from the passes after it. -/
theorem exists_of_fails {failure : Failure} {allowed : Failure → Prop}
    (h : (runAll (pass :: rest) stage).1 = .error failure) (hpass : FailsFor allowed (pass stage))
    (hfailure : ¬allowed failure) :
    ∃ next modified, pass stage = .ok (next, modified) ∧ (runAll rest next).1 = .error failure := by
  rw [runAll_cons_fst] at h
  rcases bind_eq_error.mp h with hfails | ⟨⟨next, modified⟩, hnext, h⟩
  · exact absurd (hpass _ hfails) hfailure
  · exact ⟨next, modified, hnext, map_eq_error.mp h⟩

theorem defects_of_integrity
    (h : (runAll [integrity] stage).1 = .error (.rejected (.malformedModule defects dump))) :
    defects = stage.module.defects := by
  rw [runAll_cons_fst, integrity_outcome] at h
  rcases bind_eq_error.mp h with hfailure | ⟨_, _, h⟩
  · split at hfailure
    next => cases hfailure
    next =>
      cases htext : stage.module.text with
      | error fault =>
          rw [htext] at hfailure
          cases hfailure
      | ok text =>
          rw [htext] at hfailure
          cases hfailure
          rfl
  · cases h

end Pass

namespace Module

/-- What is malformed is what sweeping has made of the localized module. -/
theorem exists_of_malformedModule {config : Config} {budget : Nat} {defects : List Defect}
    {dump : String}
    (h : (m.flatten config budget).1 = .error (.rejected (.malformedModule defects dump))) :
    m.defects = [] ∧ ∃ stage modified,
      Pass.runAll [Pass.inlining config budget, Pass.localization] { module := m } =
        (.ok modified, stage) ∧ defects = stage.module.sweep.defects := by
  unfold flatten at h
  split at h
  -- an input with defects is rejected for another reason
  next failure hinput =>
    unfold checkInput at hinput
    split at hinput
    next => cases hinput
    next =>
      obtain rfl := Except.error.inj hinput
      cases h
  next hinput =>
    have hrun := map_eq_error.mp h
    obtain ⟨first, inlined, hfirst, hrun⟩ :=
      Pass.exists_of_fails hrun (Pass.inlining_rejects config budget _) (by
        simp [Failure.Within, Rejection.origin])
    obtain ⟨second, localized, hsecond, hrun⟩ :=
      Pass.exists_of_fails hrun (Pass.localization_rejects first) (by
        simp [Failure.Within, Rejection.origin])
    obtain ⟨third, _, hthird, hrun⟩ := Pass.exists_of_fails hrun (Pass.sweeping_fails second) id
    obtain ⟨rfl, _⟩ := Prod.mk.inj (Except.ok.inj hthird)
    have hdefects := Pass.defects_of_integrity hrun
    have hdone : Pass.runAll [] second = (.ok false, second) := rfl
    exact ⟨defects_of_checkInput hinput, second, _,
      Pass.runAll_cons hfirst (Pass.runAll_cons hsecond hdone), hdefects⟩

end Module

end Monolith

import Monolith.Proofs.ControlFlow.ImmediateDominators
import Monolith.Proofs.Flattening.LoggedTexts
import Monolith.Proofs.Flattening.PhiSources
import Monolith.Proofs.Flattening.PoisonCallees
import Monolith.Proofs.Globals.Owners

/-! # Faults of flattening

What the passes address in a verified module is there: blocks of calls and of entries, and the
blocks that phis list. So flattening can fault in one place only, where the text of a module is
asked for that is refused in the end, and it does so just where a parameter is not recorded.
-/

namespace Monolith

variable {failure : Failure} {fault : Fault}

/-! ## Alignments -/

namespace Ty

mutual

theorem align_le : (ty : Ty) → ty.align ≤ 8
  | .void | .ptr => by decide
  | .int _ => Nat.min_le_right _ _
  | .array element _ => align_le element
  | .struct fields packed => by
      rw [align]
      split
      next => decide
      next => exact alignAll_le fields

theorem alignAll_le : (tys : List Ty) → alignAll tys ≤ 8
  | [] => by decide
  | ty :: tys => Nat.max_le.mpr ⟨align_le ty, alignAll_le tys⟩

end

/-- An alignment is written as it is. -/
theorem toNat_alignWord (ty : Ty) : ty.alignWord.toNat = ty.align :=
  UInt64.toNat_ofNat_of_lt (Nat.lt_of_le_of_lt ty.align_le (by decide))

end Ty

def Failure.NotFault : Failure → Prop
  | .fault _ => False
  | .rejected _ | .budgetExhausted => True

theorem Failure.Only.notFault {allowed : Rejection → Prop} (h : failure.Only allowed) :
    failure.NotFault := by
  cases failure with
  | fault => exact h
  | _ => trivial

theorem FailsFor.notFault {α : Type} {allowed : Rejection → Prop} {x : Except Failure α}
    (h : FailsFor (Failure.Only allowed) x) : FailsFor Failure.NotFault x :=
  h.mono fun _ hfailure => hfailure.notFault

theorem faulting_eq_fault {α : Type} {x : Except Fault α} :
    faulting x = .error (.fault fault) ↔ x = .error fault := by
  cases x <;> simp [faulting]

/-! ## Inlining -/

namespace Module

variable {m n : Module}

theorem lt_of_callSite? {f : Function} {b : BlockId} {index : Nat} {site : CallSite}
    (h : Function.callSite? m f b index = some site) : b < f.blocks.length := by
  obtain ⟨block, hblock, _⟩ := Option.bind_eq_some_iff.mp h
  exact (List.getElem?_eq_some_iff.mp hblock).1

/-- Where control stays in bodies, there are blocks for all that inlining does. -/
theorem Closed.inlineCall_fails (hm : m.Closed) (caller : FunctionId) (b : BlockId) (index : Nat) :
    FailsFor Failure.NotFault (m.inlineCall caller b index) := by
  have hattempt := m.attempt_inlineCall caller b index
  generalize m.inlineCall caller b index = outcome at hattempt
  cases hattempt with
  | absent | inlined => exact .ok _
  | variadic | mismatched => exact .reject trivial
  | @faulted f site fault hf hsite hfault =>
      have hlt := lt_of_callSite? hsite
      obtain ⟨callee, hcallee, hcalled⟩ := exists_of_callSite? hsite
      have hbody : f.isDeclaration = false := by
        rw [← Bool.not_eq_true, Function.isDeclaration_iff]
        exact Nat.ne_zero_of_lt hlt
      have hentry := f.length_exits ▸ (hm caller f hf hbody).entry_lt
      have hstart := site.callee.length_exits ▸ (hm callee _ hcallee hcalled).entry_lt
      obtain ⟨inlined, hinlined, _⟩ := Function.exists_inlineBody _ index hlt hentry hstart
      rw [hinlined] at hfault
      cases hfault

end Module

theorem Plan.inlineAll_notFault (plan : Plan) (budget : Nat) {m : Module} (hclosed : m.Closed) :
    FailsFor Failure.NotFault (plan.inlineAll budget m) := by
  refine .mapError (Plan.inlineCalls_fails (P := Module.Closed) (fun _ _ => trivial) ?_
    Module.Closed.inlineCall plan budget hclosed)
  exact fun n caller b index hn => hn.inlineCall_fails caller b index

/-- Where control stays in bodies, inlining faults only for a text that is logged. -/
theorem Pass.inlining_eq_fault {config : Config} {budget : Nat} {m : Module}
    (hverified : m.defects = []) (hclosed : m.Closed) :
    Pass.inlining config budget { module := m } = .error (.fault fault) ↔
      fault = .outOfBounds ∧ m.LogsUnrecorded config budget := by
  rw [Pass.inlining_outcome]
  constructor
  · intro h
    rcases bind_eq_error.mp h with hplan | ⟨plan, hplan, h⟩
    · exact ((Plan.compute_fails _ _ _).notFault _ hplan).elim
    rcases bind_eq_error.mp h with hvalid | ⟨_, hvalid, h⟩
    · exact ((plan.validate_fails _ _ _).notFault _ hvalid).elim
    rcases bind_eq_error.mp h with hinlined | ⟨inlined, hinlined, h⟩
    · exact (plan.inlineAll_notFault budget hclosed _ hinlined).elim
    rcases bind_eq_error.mp h with herased | ⟨_, _, h⟩
    · obtain ⟨aborted, herased, hfailure⟩ := mapError_eq_error.mp herased
      rw [plan.eraseInlined_outOfBounds _ _ _ herased, Failure.fault.injEq] at hfailure
      have hfails : ¬∃ n, plan.forced.foldlM (Plan.eraseInlined config.logLevel) inlined.1 =
          .ok n := by
        rintro ⟨n, hn⟩
        cases herased.symm.trans hn
      rw [Plan.exists_foldlM_eraseInlined_iff] at hfails
      simp only [not_forall] at hfails
      obtain ⟨htrace, id, hid, f, hf, hnot⟩ := hfails
      rw [Plan.function?_inlineAll (List.mem_filter.mp hid).2 hinlined] at hf
      have hinput : m.checkInput = .ok () := by rw [Module.checkInput, hverified]
      exact ⟨hfailure.symm, htrace, plan, inlined, Module.checkPlan_of_checks hinput hplan hvalid,
        hinlined, id, hid, f, hf, hnot⟩
    · cases h
  · rintro ⟨rfl, htrace, plan, inlined, hchecked, hinlined, id, hid, f, hf, hnot⟩
    obtain ⟨_, hplan, hvalid⟩ := Module.checkPlan_eq_ok hchecked
    refine bind_eq_error.mpr (.inr ⟨plan, hplan, bind_eq_error.mpr (.inr ⟨(), hvalid, ?_⟩)⟩)
    refine bind_eq_error.mpr (.inr ⟨inlined, hinlined, bind_eq_error.mpr (.inl ?_)⟩)
    cases herased : plan.forced.foldlM (Plan.eraseInlined config.logLevel) inlined.1 with
    | error aborted => exact congrArg Except.error (plan.eraseInlined_outOfBounds _ _ _ herased)
    | ok n =>
        rw [← Plan.function?_inlineAll (List.mem_filter.mp hid).2 hinlined] at hf
        exact absurd (Plan.exists_foldlM_eraseInlined_iff.mp ⟨n, herased⟩ htrace id hid f hf) hnot

/-! ## Localization -/

namespace Module

variable {m : Module}

/-- Only bodies mention globals, so only bodies own them. -/
theorem isDeclaration_of_mem_users {id : GlobalId} {user : FunctionId} (h : user ∈ m.users id)
    {f : Function} (hf : m.function? user = some f) : f.isDeclaration = false := by
  obtain ⟨mentioned, _, hmention⟩ := List.mem_flatMap.mp (List.mem_eraseDups.mp h)
  obtain ⟨entry, hentry, rfl⟩ := List.mem_map.mp hmention
  obtain ⟨hlive, hany⟩ := List.mem_filter.mp hentry
  obtain rfl := Option.some.inj (hf.symm.trans (Arena.mem_entries.mp hlive))
  obtain ⟨o, ho, _⟩ := List.any_eq_true.mp hany
  obtain ⟨block, hblock, _⟩ := List.mem_flatMap.mp ho
  exact Function.isDeclaration_of_mem hblock

theorem Enclosed.localizeGroup_fails (hm : m.Enclosed) {owner : FunctionId}
    (howner : ∀ f, m.function? owner = some f → f.isDeclaration = false) (ids : List GlobalId) :
    FailsFor (fun e => e.failure.NotFault) (m.localizeGroup owner ids) := by
  unfold localizeGroup
  split
  next => exact .ok _
  next f hf =>
    have hbody := hm owner f hf (howner f hf)
    refine .bind (.mapError ?_) fun _ => .ok _
    exact (Localized.localizeInto_fails _ hbody).mono fun e he => he.notFault

/-- Where phis list blocks of their body, there are blocks for all code that is moved. -/
theorem Enclosed.localize_fails {owners : List (GlobalId × FunctionId)} (hm : m.Enclosed)
    (howners : m.owners = .ok owners) :
    FailsFor (fun e => e.failure.NotFault) (m.localize owners) := by
  refine FailsFor.foldlM_of_ok
    (P := fun state : Module × List String => m.Derives Function.Encloses state.1) ?_
    (.refl Function.Encloses.refl m)
  intro group hgroup state hstate
  have howner : ∀ g, state.1.function? group.1 = some g → g.isDeclaration = false := by
    intro g hg
    obtain ⟨f, hf, hencloses⟩ := hstate group.1 g hg
    obtain ⟨own, hown, heq⟩ := List.mem_map.mp (mem_ownerGroups hgroup)
    rw [hencloses.isDeclaration]
    apply isDeclaration_of_mem_users _ hf
    · exact own.1
    · rw [users_of_mem_owners howners hown, heq]
      exact List.mem_singleton_self _
  refine ⟨.bind (.mapError ?_) fun _ => .ok _, fun next hnext => ?_⟩
  · exact (hm.of_derives hstate).localizeGroup_fails howner group.2
  · obtain ⟨_, hlast, _⟩ := exists_of_localizeNext hnext
    exact hstate.trans (fun _ _ _ => Function.Encloses.trans) (encloses_localizeGroup hlast)

end Module

theorem Pass.localization_fails {stage : Stage} (hm : stage.module.Enclosed) :
    FailsFor Failure.NotFault (Pass.localization stage) := by
  rw [Pass.localization_outcome]
  refine stage.module.owners_fails.notFault.bind_of_ok fun owners howners => ?_
  exact .bind (.mapError (hm.localize_fails howners)) fun _ => .ok _

/-! ## Checking the result -/

namespace Pass

variable {config : Config} {budget : Nat} {stage last : Stage} {modified : Bool}

theorem enclosed_of_inlining (h : inlining config budget stage = .ok (last, modified))
    (hm : stage.module.Enclosed) : last.module.Enclosed := by
  obtain ⟨plan, inlined, _, _, hinlined, hlast, _⟩ := exists_of_inlining h
  rw [hlast]
  exact (hm.inlineAll hinlined).prune_eraseForced plan

/-- The last check faults where there are defects to show and no text to show them in. -/
theorem integrity_eq_fault : integrity stage = .error (.fault fault) ↔
    stage.module.defects ≠ [] ∧ stage.module.text = .error fault := by
  rw [integrity_outcome]
  split
  next hnone =>
    refine iff_of_false (fun h => ?_) fun h => h.1 hnone
    cases h
  next hsome =>
    constructor
    · intro h
      refine ⟨hsome, ?_⟩
      rcases bind_eq_error.mp h with htext | ⟨_, _, h⟩
      · exact faulting_eq_fault.mp htext
      · cases h
    · intro ⟨_, htext⟩
      rw [htext]
      rfl

theorem runAll_singleton_eq_error {pass : Pass} :
    (runAll [pass] stage).1 = .error failure ↔ pass stage = .error failure := by
  rw [runAll_cons_fst, bind_eq_error]
  refine or_iff_left ?_
  rintro ⟨_, _, h⟩
  cases h

/-- A run goes on behind passes that succeed. -/
theorem runAll_append_eq_error {passes rest : List Pass}
    (h : runAll passes stage = (.ok modified, last)) :
    (runAll (passes ++ rest) stage).1 = .error failure ↔ (runAll rest last).1 = .error failure := by
  induction passes generalizing stage modified with
  | nil =>
      obtain ⟨_, rfl⟩ := Prod.mk.inj h
      rfl
  | cons pass passes ih =>
      obtain ⟨next, first, others, hpass, hrest⟩ := exists_of_runAll_cons h
      rw [List.cons_append, runAll_cons_fst, hpass, ← ih hrest]
      exact map_eq_error

def rewriting (config : Config) (budget : Nat) : List Pass :=
  [inlining config budget, localization, sweeping]

theorem standard_eq (config : Config) (budget : Nat) :
    standard config budget = rewriting config budget ++ [integrity] := rfl

theorem extends_of_rewriting (h : runAll (rewriting config budget) stage = (.ok modified, last)) :
    stage.module.Derives Function.Extends last.module := by
  have hpasses : ∀ pass ∈ rewriting config budget, ∀ stage next modified,
      pass stage = .ok (next, modified) →
        stage.module.Derives Function.Extends next.module := by
    intro pass hpass _ _ _ hnext
    have hstandard : pass ∈ standard config budget := List.mem_append_left [integrity] hpass
    exact extends_of_mem_standard hstandard hnext
  have hleaves : ∀ pass ∈ rewriting config budget, ∀ stage : Stage,
      FailsFor (fun e => stage.module.Derives Function.Extends e.left.module) (pass.run stage) := by
    intro pass hpass stage
    have hstandard : pass ∈ standard config budget := List.mem_append_left [integrity] hpass
    exact leaves_of_mem_standard hstandard stage
  have hderives := derives_runAll Function.Extends.refl (fun _ _ _ => Function.Extends.trans)
    hpasses hleaves stage
  rwa [h] at hderives

theorem closed_of_rewriting {m : Module} (hverified : m.defects = [])
    (h : runAll (rewriting config budget) { module := m } = (.ok modified, last)) :
    last.module.Closed := by
  obtain ⟨first, _, _, hinlining, h⟩ := exists_of_runAll_cons h
  obtain ⟨second, _, _, hlocalization, h⟩ := exists_of_runAll_cons h
  obtain ⟨third, _, _, hsweeping, h⟩ := exists_of_runAll_cons h
  obtain ⟨rfl, _⟩ := Prod.mk.inj (Except.ok.inj hsweeping)
  obtain ⟨_, rfl⟩ := Prod.mk.inj h
  have hdone : runAll [] second = (.ok false, second) := rfl
  have hrun := runAll_cons hinlining (runAll_cons hlocalization hdone)
  exact (Module.closed_of_runAll hverified hrun).sweep

/-- The passes that change a verified module fault only for a text that is logged. -/
theorem exists_of_fault {m : Module} (hverified : m.defects = [])
    (h : (runAll (standard config budget) { module := m }).1 = .error (.fault fault)) :
    inlining config budget { module := m } = .error (.fault fault) ∨
      ∃ last modified, runAll (rewriting config budget) { module := m } = (.ok modified, last) ∧
        integrity last = .error (.fault fault) := by
  have henclosed := Module.enclosed_of_verified hverified
  rw [standard, runAll_cons_fst] at h
  rcases bind_eq_error.mp h with hfault | ⟨⟨first, _⟩, hinlining, h⟩
  · exact .inl hfault
  have hfirst := enclosed_of_inlining hinlining henclosed
  obtain ⟨second, _, hlocalization, h⟩ :=
    exists_of_fails (map_eq_error.mp h) (localization_fails hfirst) id
  obtain ⟨third, _, hsweeping, h⟩ := exists_of_fails h (sweeping_fails second) id
  have hdone : runAll [] third = (.ok false, third) := rfl
  have hrun := runAll_cons hinlining (runAll_cons hlocalization (runAll_cons hsweeping hdone))
  exact .inr ⟨third, _, hrun, runAll_singleton_eq_error.mp h⟩

end Pass

namespace Module

theorem flatten_eq_error_iff {m : Module} (hverified : m.defects = []) {config : Config}
    {budget : Nat} : (m.flatten config budget).1 = .error failure ↔
      (Pass.runAll (Pass.standard config budget) { module := m }).1 = .error failure := by
  rw [flatten, checkInput, hverified]
  exact map_eq_error

/-- Working on a verified module faults only where a text is asked for that would show the type
of a parameter that is not recorded: that of a function that is erased, at the level of traces,
or that of the module when it is refused in the end. -/
theorem only_texts_fault {m : Module} (hverified : m.defects = []) (config : Config)
    (budget : Nat) :
    (∀ fault, (m.flatten config budget).1 = .error (.fault fault) ↔
      fault = .outOfBounds ∧ (m.LogsUnrecorded config budget ∨ ∃ last modified,
        Pass.runAll (Pass.rewriting config budget) { module := m } = (.ok modified, last) ∧
        last.module.defects ≠ [] ∧ ¬last.module.Recorded)) ∧
    (∀ n : Module, (∃ text, n.text = .ok text) ↔ n.Recorded) ∧
    (m.Recorded → (m.flatten config budget).2.Recorded ∧
      ∀ fault, (m.flatten config budget).1 ≠ .error (.fault fault)) ∧
    (∀ last modified,
      Pass.runAll (Pass.rewriting config budget) { module := m } = (.ok modified, last) →
      ∀ id f, last.module.function? id = some f → f.isDeclaration = false →
        f.dominatorTree? = some f.dominatorTree) ∧
    ∀ ty : Ty, ty.alignWord.toNat = ty.align := by
  have hclosed := (enclosed_of_verified hverified).closed
  have hfault : ∀ fault, (m.flatten config budget).1 = .error (.fault fault) ↔
      fault = .outOfBounds ∧ (m.LogsUnrecorded config budget ∨ ∃ last modified,
        Pass.runAll (Pass.rewriting config budget) { module := m } = (.ok modified, last) ∧
        last.module.defects ≠ [] ∧ ¬last.module.Recorded) := by
    intro fault
    rw [flatten_eq_error_iff hverified]
    constructor
    · intro h
      rcases Pass.exists_of_fault hverified h with hlogged | ⟨last, modified, hrun, hintegrity⟩
      · obtain ⟨heq, hlogs⟩ := (Pass.inlining_eq_fault hverified hclosed).mp hlogged
        exact ⟨heq, .inl hlogs⟩
      · obtain ⟨hdefects, htext⟩ := Pass.integrity_eq_fault.mp hintegrity
        obtain ⟨rfl, hnot⟩ := last.module.guarded_text.eq_error_iff.mp htext
        exact ⟨rfl, .inr ⟨last, modified, hrun, hdefects, hnot⟩⟩
    · rintro ⟨heq, hlogs | ⟨last, modified, hrun, hdefects, hnot⟩⟩
      · rw [Pass.standard, Pass.runAll_cons_fst,
          (Pass.inlining_eq_fault hverified hclosed).mpr ⟨heq, hlogs⟩]
        rfl
      · have htext := last.module.guarded_text.eq_error_iff.mpr ⟨heq, hnot⟩
        rw [Pass.standard_eq, Pass.runAll_append_eq_error hrun, Pass.runAll_singleton_eq_error]
        exact Pass.integrity_eq_fault.mpr ⟨hdefects, htext⟩
  refine ⟨hfault, fun n => n.guarded_text.exists_eq_ok_iff, fun hrecorded => ⟨?_, ?_⟩, ?_, ?_⟩
  · exact hrecorded.of_extends (m.extends_flatten config budget)
  · intro fault h
    rcases ((hfault fault).mp h).2 with
      ⟨_, _, _, _, _, id, _, f, hf, hnot⟩ | ⟨last, modified, hrun, _, hnot⟩
    · exact hnot (hrecorded id f hf)
    · exact hnot (hrecorded.of_extends (Pass.extends_of_rewriting hrun))
  · intro last modified hrun id f hf hbody
    have hclosed := Pass.closed_of_rewriting hverified hrun id f hf hbody
    exact Function.dominatorTree?_eq (f.length_exits ▸ hclosed.entry_lt)
  · exact Ty.toNat_alignWord

/-- `chain` with a parameter that is not recorded. -/
def stray : Module :=
  rebuildNames { name := "stray", functions := [some { chainMain with parameters := [7] }] }

theorem compute_stray :
    Plan.compute {} stray (CallGraph.ofModule stray) = .ok { root := 0, order := [0] } :=
  Plan.compute_of_pairwise rfl rfl (by decide) (by decide)

theorem flatten_stray :
    stray.defects = [] ∧ (stray.flatten {} 0).1 = .error (.fault .outOfBounds) := by
  unfold flatten Pass.standard Pass.runAll Pass.inlining
  simp only [compute_stray]
  decide +kernel

/-- A function with a parameter that is not recorded, besides a root that does not call it. -/
def unlisted : Module :=
  rebuildNames
    { name := "unlisted"
      functions := [
        some { name := "helper", returnType := .void, parameters := [7]
               blocks := [{ terminator := .ret none }] },
        some { name := "main", returnType := .void, blocks := [{ terminator := .ret none }] }] }

theorem logsUnrecorded_unlisted :
    unlisted.defects = [] ∧ unlisted.LogsUnrecorded { logLevel := .trace } 0 := by
  have hplan : Plan.compute { logLevel := .trace } unlisted (CallGraph.ofModule unlisted) =
      .ok { root := 1, order := [0, 1] } :=
    Plan.compute_of_pairwise rfl rfl (by decide) (by decide)
  refine ⟨by decide +kernel, rfl, { root := 1, order := [0, 1] }, (unlisted, 0), ?_, rfl, 0,
    List.mem_singleton_self 0, _, rfl, by decide⟩
  exact checkPlan_of_checks (by decide +kernel) hplan (by decide +kernel)

theorem counter_never_faults :
    counter.defects = [] ∧ counter.Recorded ∧ (∃ text, counter.text = .ok text) ∧
      (∃ text, (counter.flatten {} 1).2.text = .ok text) ∧
      (∀ fault, (counter.flatten {} 1).1 ≠ .error (.fault fault)) ∧
      stray.defects = [] ∧ (∃ last modified,
        Pass.runAll (Pass.rewriting {} 0) { module := stray } = (.ok modified, last) ∧
        last.module.defects ≠ [] ∧ ¬last.module.Recorded) ∧
      unlisted.defects = [] ∧ unlisted.LogsUnrecorded { logLevel := .trace } 0 ∧
      (unlisted.flatten { logLevel := .trace } 0).1 = .error (.fault .outOfBounds) := by
  have hverified : counter.defects = [] := by decide +kernel
  have hrecorded : counter.Recorded := by decide
  obtain ⟨hstray, hfaulty⟩ := flatten_stray
  obtain ⟨_, htext, hsafe, _⟩ := only_texts_fault hverified {} 1
  obtain ⟨hkept, hnever⟩ := hsafe hrecorded
  obtain ⟨hfault, _⟩ := only_texts_fault hstray {} 0
  obtain ⟨hunlisted, hlogs⟩ := logsUnrecorded_unlisted
  obtain ⟨hlogged, _⟩ := only_texts_fault hunlisted { logLevel := .trace } 0
  have hstrayed := ((hfault _).mp hfaulty).2.resolve_left fun hlogs => by cases hlogs.1
  exact ⟨hverified, hrecorded, (htext _).mpr hrecorded, (htext _).mpr hkept, hnever, hstray,
    hstrayed, hunlisted, hlogs, (hlogged _).mpr ⟨rfl, .inl hlogs⟩⟩

/-- Nothing is wrong with the module that verifying would show, but it has no text, and
flattening it faults. -/
theorem stray_faults : stray.defects = [] ∧ stray.text = .error .outOfBounds ∧
    (stray.flatten {} 0).1 = .error (.fault .outOfBounds) := by
  refine ⟨flatten_stray.1, ?_, flatten_stray.2⟩
  exact stray.guarded_text.eq_error_iff.mpr ⟨rfl, by decide⟩

end Module

end Monolith

import Monolith.Proofs.Code.ReplacedFunctions
import Monolith.Proofs.Flattening.EarlyRejections
import Monolith.Proofs.Text.RecordedTexts

/-! # Texts that are logged

When a function is erased that was inlined, its text is logged at the level of traces. Inlining
has not changed the function, and erasing others before it has replaced operands only, so there is
a text exactly if the parameters of the function in the input are recorded.
-/

namespace Monolith

namespace Plan

variable {plan : Plan} {m n : Module}

/-- Functions that are to be inlined stay as they are until they are erased. -/
theorem function?_inlineAll {budget count : Nat} {id : FunctionId} (hid : plan.forces id = true)
    (h : plan.inlineAll budget m = .ok (n, count)) : n.function? id = m.function? id := by
  refine foldlM_induction (fun state => state.1.function? id = m.function? id) ?_ rfl
    (mapError_eq_ok.mp h)
  intro caller hcaller state next hstate hnext
  obtain ⟨⟨last, more⟩, hlast, hnext⟩ := bind_eq_ok.mp hnext
  obtain rfl := Except.ok.inj hnext
  have hne : caller ≠ id := by
    rintro rfl
    rw [callers, List.mem_filter, hid] at hcaller
    cases hcaller.2
  refine Module.inlineInto_induction (P := fun k => k.function? id = m.function? id) ?_ hstate hlast
  intro k next b index hk hcall
  obtain ⟨_, _, inlined, hf, _, _, _, _, rfl⟩ := Module.exists_of_inlineCall hcall
  rw [Module.function?_setFunction hf, if_neg hne, hk]

/-- A function is erased unless its text is logged and has none. -/
theorem exists_eraseInlined_iff {level : LogLevel} {id : FunctionId} :
    (∃ n, eraseInlined level m id = .ok n) ↔
      (level = .trace → ∀ f, m.function? id = some f → f.Recorded) := by
  unfold eraseInlined
  dsimp only
  rw [Module.function?_replaceFunction]
  cases m.function? id with
  | none => exact iff_of_true ⟨_, rfl⟩ fun _ f hf => by cases hf
  | some f =>
      simp only [Option.map_some, Option.some.injEq, forall_eq']
      have hlog : (∃ logged, logErased level (f.mapOperands (.replaceFunction id placeholder)) =
          .ok logged) ↔ (level = .trace → f.Recorded) := by
        unfold logErased
        split
        next htrace =>
          have htext := ((f.mapOperands (.replaceFunction id placeholder)).guarded_text.map
            fun _ => ()).exists_eq_ok_iff
          exact htext.trans ⟨fun hf _ => hf, fun hf => hf htrace⟩
        next hquiet => exact iff_of_true ⟨(), rfl⟩ fun htrace => absurd htrace hquiet
      rw [← hlog]
      constructor
      · rintro ⟨n, h⟩
        obtain ⟨logged, hlogged, _⟩ := bind_eq_ok.mp h
        exact ⟨logged, faulting_eq_ok.mp (leaving_eq_ok.mp hlogged)⟩
      · rintro ⟨logged, hlogged⟩
        exact ⟨_, bind_eq_ok.mpr ⟨logged, leaving_eq_ok.mpr (faulting_eq_ok.mpr hlogged), rfl⟩⟩

/-- Functions are erased one after the other unless the text of one is logged and has none. -/
theorem exists_foldlM_eraseInlined_iff {level : LogLevel} {ids : List FunctionId} :
    (∃ n, ids.foldlM (eraseInlined level) m = .ok n) ↔
      (level = .trace → ∀ id ∈ ids, ∀ f, m.function? id = some f → f.Recorded) := by
  induction ids generalizing m with
  | nil => exact iff_of_true ⟨m, rfl⟩ fun _ => List.forall_mem_nil _
  | cons id ids ih =>
      have hstep : (∃ n, (id :: ids).foldlM (eraseInlined level) m = .ok n) ↔
          (∃ n, eraseInlined level m id = .ok n) ∧
            ∃ n, ids.foldlM (eraseInlined level)
              ((m.replaceFunction id placeholder).eraseFunction id) = .ok n := by
        rw [List.foldlM_cons]
        constructor
        · rintro ⟨n, h⟩
          obtain ⟨next, hnext, h⟩ := bind_eq_ok.mp h
          exact ⟨⟨next, hnext⟩, n, eraseInlined_eq_ok hnext ▸ h⟩
        · rintro ⟨⟨next, hnext⟩, n, h⟩
          exact ⟨n, bind_eq_ok.mpr ⟨next, hnext, eraseInlined_eq_ok hnext ▸ h⟩⟩
      rw [hstep, exists_eraseInlined_iff, ih, ← forall_and]
      refine forall_congr' fun _ => ?_
      rw [List.forall_mem_cons]
      refine and_congr_right fun hfirst => forall_congr' fun other => forall_congr' fun _ => ?_
      -- the others have the same parameters and variables as before
      rw [Module.function?_eraseFunction, Module.function?_replaceFunction]
      by_cases heq : id = other
      · subst heq
        rw [if_pos rfl]
        exact iff_of_true (fun f hf => by cases hf) hfirst
      · rw [if_neg heq]
        constructor
        · exact fun h f hf => h (f.mapOperands _) (by rw [hf]; rfl)
        · intro h f hf
          obtain ⟨g, hg, rfl⟩ := Option.map_eq_some_iff.mp hf
          exact h g hg

theorem eraseInlined_outOfBounds (plan : Plan) (level : LogLevel) (m : Module) :
    FailsFor (fun e => e.failure = .fault .outOfBounds)
      (plan.forced.foldlM (eraseInlined level) m) := by
  refine plan.eraseInlined_fails (P := fun _ => True) (fun _ _ _ _ => trivial) ?_ trivial
  intro id _ n f _ _ fault hfault
  unfold logErased at hfault
  split at hfault
  next => exact congrArg Failure.fault (((f.guarded_text.map _).eq_error_iff.mp hfault).1)
  next => cases hfault

end Plan

/-- At the level of traces, the text of a function is logged when it is erased, and one that has
none is to be erased. -/
def Module.LogsUnrecorded (m : Module) (config : Config) (budget : Nat) : Prop :=
  config.logLevel = .trace ∧ ∃ plan inlined, m.checkPlan config = .ok plan ∧
    plan.inlineAll budget m = .ok inlined ∧
    ∃ id ∈ plan.forced, ∃ f, m.function? id = some f ∧ ¬f.Recorded

end Monolith

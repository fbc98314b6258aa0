import Monolith.Proofs.Flattening.ExtendedFunctions
import Monolith.Proofs.Flattening.FailingPasses
import Monolith.Proofs.Flattening.SweptCalls
import Monolith.Proofs.Verify.DefectChecks

/-! # Calls of poison in flattened modules

Verifying reports every call of poison in a module whose bodies are closed. Flattening keeps
bodies closed and sweeps before it verifies, so what it reports are the calls of results that
were swept away.
-/

namespace Monolith

namespace Function

theorem sameFlow_sweep (f : Function) : f.SameFlow f.sweep := by
  have hdropped : f.SameFlow f.dropDeadCalls := by
    refine ⟨rfl, ?_⟩
    rw [exits, dropDeadCalls, List.map_map]
    rfl
  rw [sweep_eq]
  exact hdropped.trans (f.dropDeadCalls.sameFlow_mapOperands _)

end Function

/-- All of a closed body is looked at. -/
theorem Function.Closed.functionDefects {f : Function} (h : f.Closed) (m : Module)
    (hbody : f.isDeclaration = false) : m.functionDefects f = m.bodyDefects f := by
  have hentry : f.hasBlock f.entry = true := decide_eq_true (f.length_exits ▸ h.entry_lt)
  have htargets : f.invalidTargets = [] := by
    refine invalidTargets_eq_nil_iff.mpr fun a b hb => ?_
    obtain ⟨block, hblock, hb⟩ := mem_successors.mp hb
    rw [← length_exits]
    exact h.exits_lt _ (List.mem_map_of_mem (List.mem_of_getElem? hblock)) b hb
  simp [Module.functionDefects, hbody, hentry, htargets]

namespace Module

/-! ## What verifying reports -/

section

variable {m : Module} {f : Function} {name : String} {b : BlockId}

theorem poisonCallee_not_mem_pointerDefects {a : BlockId} {address : Operand} :
    .poisonCallee name b ∉ f.pointerDefects a address := by
  intro h
  unfold Function.pointerDefects at h
  split at h
  next => split at h <;> simp at h
  next => cases h

theorem poisonCallee_mem_operationDefects {a : BlockId} {op : Operation} :
    .poisonCallee name b ∈ m.operationDefects f a op ↔
      f.name = name ∧ a = b ∧ ∃ o, op.callee? = some o ∧ o.isPoison = true := by
  cases op with
  | call dest ty callee args =>
      rw [operationDefects, callDefects]
      split
      next hpoison =>
        rw [List.mem_singleton, Defect.poisonCallee.injEq]
        constructor
        · rintro ⟨rfl, rfl⟩
          exact ⟨rfl, rfl, callee, rfl, hpoison⟩
        · rintro ⟨rfl, rfl, _⟩
          exact ⟨rfl, rfl⟩
      next hpoison =>
        simp only [Operation.callee?, Option.some.injEq, exists_eq_left', hpoison]
        split
        next => split <;> simp
        next => simp
  | load | store | elementPtr =>
      refine iff_of_false poisonCallee_not_mem_pointerDefects ?_
      rintro ⟨_, _, _, hcallee, _⟩
      cases hcallee
  | _ => simp [operationDefects, Operation.callee?]

theorem poisonCallee_mem_bodyDefects :
    .poisonCallee name b ∈ m.bodyDefects f ↔
      f.name = name ∧ ∃ i ∈ f.body b, ∃ o, i.op.callee? = some o ∧ o.isPoison = true := by
  rw [mem_bodyDefects_iff Check.noConfusion]
  constructor
  · rintro ⟨a, block, hblock, h⟩
    rcases mem_blockDefects_iff.mp h with ⟨c, _, h⟩ | ⟨i, hi, h⟩
    · cases check_of_mem_referenceDefects h
    · obtain ⟨hname, rfl, hcall⟩ := poisonCallee_mem_operationDefects.mp h
      rw [← Function.body_eq hblock] at hi
      exact ⟨hname, i, hi, hcall⟩
  · rintro ⟨hname, i, hi, hcall⟩
    obtain ⟨block, hblock, hi⟩ := Function.block?_of_mem_body hi
    exact ⟨b, block, hblock, mem_blockDefects_iff.mpr (.inr ⟨i, hi,
      poisonCallee_mem_operationDefects.mpr ⟨hname, rfl, hcall⟩⟩)⟩

/-- In a closed body every call of poison is reported. -/
theorem poisonCallee_mem_functionDefects (hclosed : f.isDeclaration = false → f.Closed) :
    .poisonCallee name b ∈ m.functionDefects f ↔
      f.name = name ∧ ∃ i ∈ f.body b, ∃ o, i.op.callee? = some o ∧ o.isPoison = true := by
  cases hbody : f.isDeclaration with
  | true =>
      rw [functionDefects, if_pos hbody]
      refine iff_of_false List.not_mem_nil ?_
      rintro ⟨_, i, hi, _⟩
      obtain ⟨block, hblock, _⟩ := Function.block?_of_mem_body hi
      rw [Function.isDeclaration_of_mem (List.mem_of_getElem? hblock)] at hbody
      cases hbody
  | false =>
      rw [(hclosed hbody).functionDefects m hbody, poisonCallee_mem_bodyDefects]

theorem poisonCallee_mem_defects (hclosed : m.Closed) :
    .poisonCallee name b ∈ m.defects ↔ ∃ id f, m.function? id = some f ∧ f.name = name ∧
      ∃ i ∈ f.body b, ∃ o, i.op.callee? = some o ∧ o.isPoison = true := by
  rw [mem_defects_iff Check.noConfusion, or_iff_right]
  · refine exists_congr fun id => exists_congr fun f => and_congr_right fun hf => ?_
    exact poisonCallee_mem_functionDefects (hclosed id f hf)
  · rintro ⟨id, g, _, h⟩
    obtain ⟨c, _, h | ⟨_, h⟩⟩ := mem_globalDefects_iff.mp h
    · cases check_of_mem_referenceDefects h
    · cases h

end

/-! ## What flattening reports -/

theorem Closed.sweep {m : Module} (h : m.Closed) : m.sweep.Closed :=
  (keepsFlow_mapLive Function.sameFlow_sweep rfl : m.KeepsFlow m.sweep).closed h

theorem poisonCallee_mem_sweep {m : Module} (hclosed : m.Closed) {name : String} {b : BlockId} :
    .poisonCallee name b ∈ m.sweep.defects ↔
      ∃ id f, m.function? id = some f ∧ f.name = name ∧ f.CallsDeadResult b := by
  rw [poisonCallee_mem_defects hclosed.sweep]
  constructor
  · rintro ⟨id, swept, hswept, hname, hcall⟩
    rw [function?, sweep, Arena.get?_mapLive] at hswept
    obtain ⟨f, hf, rfl⟩ := Option.map_eq_some_iff.mp hswept
    exact ⟨id, f, hf, f.extends_sweep.name ▸ hname, Function.isPoison_sweep.mp hcall⟩
  · rintro ⟨id, f, hf, hname, hcall⟩
    refine ⟨id, f.sweep, ?_, f.extends_sweep.name.trans hname, Function.isPoison_sweep.mpr hcall⟩
    rw [function?, sweep, Arena.get?_mapLive]
    exact Option.map_eq_some_iff.mpr ⟨f, hf, rfl⟩

/-- Control stays in the bodies while calls are inlined and globals localized. -/
theorem closed_of_runAll {m : Module} {config : Config} {budget : Nat} {stage : Stage}
    {modified : Bool} (hverified : m.defects = [])
    (h : Pass.runAll [Pass.inlining config budget, Pass.localization] { module := m } =
      (.ok modified, stage)) : stage.module.Closed := by
  obtain ⟨first, _, _, hinlining, h⟩ := Pass.exists_of_runAll_cons h
  obtain ⟨second, _, _, hlocalization, h⟩ := Pass.exists_of_runAll_cons h
  obtain ⟨_, rfl⟩ := Prod.mk.inj h
  obtain ⟨plan, inlined, count, _, hinlined, hfirst, _⟩ := Pass.exists_of_inlining hinlining
  obtain ⟨owners, names, _, hlocalized, _⟩ := Pass.exists_of_localization hlocalization
  have hclosed : inlined.Closed := (closed_of_verified hverified).inlineAll hinlined
  have herased := (keepsFlow_eraseForced plan inlined).trans (keepsFlow_prune _)
  rw [← hfirst] at herased
  exact (herased.trans (keepsFlow_localize hlocalized)).closed hclosed

/-- Sweeping leaves no mention of what it swept away. It leaves a call of poison, which a
second sweep would remove and which flattening reports, just where a call names the result of
a call of poison. -/
theorem sweep_leaves_calls_of_dead_results (f : Function) (m : Module) (config : Config)
    (budget : Nat) :
    (∀ x, f.DeadResult x → .var x ∉ f.sweep.operands) ∧
    (∀ b, (∃ i ∈ f.sweep.body b, i.op.CallsPoison) ↔ f.CallsDeadResult b) ∧
    (f.sweep.deadCalls = [] ↔ ∀ b, ¬f.CallsDeadResult b) ∧
    ∀ defects dump,
      (m.flatten config budget).1 = .error (.rejected (.malformedModule defects dump)) →
      ∃ stage modified,
        Pass.runAll [Pass.inlining config budget, Pass.localization] { module := m } =
          (.ok modified, stage) ∧
        ∀ name b, .poisonCallee name b ∈ defects ↔
          ∃ id g, stage.module.function? id = some g ∧ g.name = name ∧ g.CallsDeadResult b := by
  refine ⟨fun x => f.var_not_mem_sweep, fun b => f.callsPoison_sweep, f.deadCalls_sweep, ?_⟩
  intro defects dump h
  obtain ⟨hverified, stage, modified, hrun, rfl⟩ := exists_of_malformedModule h
  exact ⟨stage, modified, hrun, fun name b =>
    poisonCallee_mem_sweep (closed_of_runAll hverified hrun)⟩

/-- The second call is of what the first one gives. -/
def chainMain : Function where
  name := "main"
  returnType := .void
  blocks := [
    { instructions := [
        { op := .call (some 0) .ptr (.const (.cast .bitcast (.poison .ptr) .ptr)) [] },
        { op := .call none .void (.var 0) [] }]
      terminator := .ret none }]
  values := [{ ty := .ptr }]

def chain : Module := rebuildNames { name := "chain", functions := [some chainMain] }

theorem compute_chain :
    Plan.compute {} chain (CallGraph.ofModule chain) = .ok { root := 0, order := [0] } :=
  Plan.compute_of_pairwise rfl rfl (by decide) (by decide)

theorem flatten_chain :
    (chain.flatten {} 0).1 = .error (.rejected (.malformedModule [.poisonCallee "main" 0]
      ("; module chain\n\n; f0\ndefine void @main() \x7b\nbb0:\n  call void ptr poison()\n" ++
        "  ret void\n\x7d\n"))) := by
  unfold flatten Pass.standard Pass.runAll Pass.inlining
  simp only [compute_chain]
  decide +kernel

theorem chainMain_deadResult : chainMain.DeadResult 0 :=
  ⟨0, { op := .call (some 0) .ptr (.const (.cast .bitcast (.poison .ptr) .ptr)) [] },
    List.mem_cons_self, ⟨_, .ptr, rfl, .value .whole⟩, rfl⟩

theorem chain_reported_as_left :
    chainMain.DeadResult 0 ∧ .var 0 ∉ chainMain.sweep.operands ∧ ∃ defects dump,
      (chain.flatten {} 0).1 = .error (.rejected (.malformedModule defects dump)) ∧
      .poisonCallee "main" 0 ∈ defects ∧
      ∃ stage modified,
        Pass.runAll [Pass.inlining {} 0, Pass.localization] { module := chain } =
          (.ok modified, stage) ∧
        ∃ id f, stage.module.function? id = some f ∧ f.name = "main" ∧ f.CallsDeadResult 0 := by
  obtain ⟨hunread, _, _, hflatten⟩ := sweep_leaves_calls_of_dead_results chainMain chain {} 0
  obtain ⟨stage, modified, hrun, hreported⟩ := hflatten _ _ flatten_chain
  have hmem := List.mem_singleton_self (Defect.poisonCallee "main" 0)
  exact ⟨chainMain_deadResult, hunread 0 chainMain_deadResult, _, _, flatten_chain, hmem, stage,
    modified, hrun, (hreported "main" 0).mp hmem⟩

/-- One sweep of a verified module does not find all calls of poison. -/
theorem chain_not_swept :
    chain.defects = [] ∧ chain.function? 0 = some chainMain ∧
      (∃ i ∈ chainMain.sweep.body 0, i.op.CallsPoison) ∧ chainMain.sweep.deadCalls ≠ [] ∧
      ∃ defects dump, (chain.flatten {} 0).1 = .error (.rejected (.malformedModule defects dump)) ∧
        .poisonCallee "main" 0 ∈ defects := by
  refine ⟨by decide +kernel, rfl, ?_, by decide, _, _, flatten_chain, List.mem_singleton_self _⟩
  exact ⟨{ op := .call none .void (.poison .ptr) [] }, by decide, .poison .ptr, .ptr, rfl, .whole⟩

end Module

end Monolith

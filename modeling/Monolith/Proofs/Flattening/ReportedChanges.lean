import Monolith.Proofs.Flattening.FlattenedAgain
import Monolith.Proofs.Flattening.FlatteningSteps
import Monolith.Proofs.Verify.ClosedBodies

/-! # What passes report

A pass says whether it has modified the module from what it has counted, and does not compare
modules. But all that it counts goes one way: functions and globals are lost and blocks are
added, or else instructions are lost. So a pass that has counted something has changed the
module, and no later pass changes it back.
-/

namespace Monolith

variable {modified : Bool} {plan : Plan}

namespace Module

/-- Nothing is added to the functions and globals, and no body loses a block. -/
structure Reduces (m n : Module) : Prop where
  functions : m.Derives (fun f g => f.blocks.length ≤ g.blocks.length) n
  globals : ∀ id, (n.global? id).isSome = true → (m.global? id).isSome = true

def instructionCount (m : Module) : Nat :=
  (m.functions.entries.flatMap fun entry => entry.2.instructions).length

/-- The module is reduced, and where it is the same in that respect, no instruction is added. -/
structure Descends (m n : Module) : Prop where
  reduces : m.Reduces n
  instructions : n.Reduces m → n.instructionCount ≤ m.instructionCount

/-- What a change of the module is reported as: the module is left as it is, or it goes down
a way that does not lead back. -/
inductive Reported (m : Module) : Module → Bool → Prop where
  | unchanged : Reported m m false
  | changed {n : Module} (hdescends : m.Descends n) (hback : ¬n.Descends m) : Reported m n true

variable {m n k : Module}

/-! ## Going down -/

theorem Reduces.refl (m : Module) : m.Reduces m :=
  ⟨.refl (fun _ => Nat.le_refl _) m, fun _ h => h⟩

theorem Reduces.trans (h : m.Reduces n) (h' : n.Reduces k) : m.Reduces k :=
  ⟨h.functions.trans (fun _ _ _ => Nat.le_trans) h'.functions,
    fun id hid => h.globals id (h'.globals id hid)⟩

theorem Descends.refl (m : Module) : m.Descends m := ⟨.refl m, fun _ => Nat.le_refl _⟩

theorem Descends.trans (h : m.Descends n) (h' : n.Descends k) : m.Descends k where
  reduces := h.reduces.trans h'.reduces
  instructions hback :=
    Nat.le_trans (h'.instructions (hback.trans h.reduces))
      (h.instructions (h'.reduces.trans hback))

theorem Reported.descends (h : m.Reported n modified) : m.Descends n := by
  cases h with
  | unchanged => exact .refl m
  | changed hdescends _ => exact hdescends

/-- One change after the other is a change if one of them is. -/
theorem Reported.trans {first second : Bool} (h : m.Reported n first)
    (h' : n.Reported k second) : m.Reported k (first || second) := by
  cases h with
  | unchanged => rwa [Bool.false_or]
  | changed hdescends hback =>
      rw [Bool.true_or]
      exact .changed (hdescends.trans h'.descends) fun hup => hback (h'.descends.trans hup)

theorem Reported.of_not_reduces (h : m.Reduces n) (hback : ¬n.Reduces m) : m.Reported n true :=
  .changed ⟨h, fun hup => absurd hup hback⟩ fun hup => hback hup.reduces

/-- A function that is lost does not come back. -/
theorem Reported.of_function (h : m.Reduces n) {id : FunctionId}
    (hid : (m.function? id).isSome = true) (hlost : n.function? id = none) :
    m.Reported n true := by
  refine .of_not_reduces h fun hback => ?_
  obtain ⟨f, hf⟩ := Option.isSome_iff_exists.mp hid
  obtain ⟨g, hg, _⟩ := hback.functions id f hf
  rw [hlost] at hg
  cases hg

theorem Reported.of_global (h : m.Reduces n) {id : GlobalId}
    (hid : (m.global? id).isSome = true) (hlost : n.global? id = none) : m.Reported n true := by
  refine .of_not_reduces h fun hback => ?_
  have hkept := hback.globals id hid
  rw [hlost] at hkept
  cases hkept

/-! ## Comparing modules -/

theorem same_refl (m : Module) : m.same m = true := by
  simp [same, NameTable.agrees]

theorem descends_of_same (h : m.same n = true) : n.Descends m := by
  simp only [same, Bool.and_eq_true, decide_eq_true_eq] at h
  obtain ⟨⟨⟨⟨⟨_, hfunctions⟩, hglobals⟩, _⟩, _⟩, _⟩ := h
  have hlookup : n.function? = m.function? := by
    unfold function?
    rw [hfunctions]
  have hglobal : n.global? = m.global? := by
    unfold global?
    rw [hglobals]
  refine ⟨⟨fun id f hf => ⟨f, ?_, Nat.le_refl _⟩, fun id hid => ?_⟩, fun _ => ?_⟩
  · rwa [hlookup]
  · rwa [hglobal]
  · rw [instructionCount, instructionCount, hfunctions]

/-- The report is true, with name tables compared entry by entry or as maps. -/
theorem Reported.eq_not_same (h : m.Reported n modified) :
    (modified = true ↔ n ≠ m) ∧ modified = !m.same n := by
  cases h with
  | unchanged => simp [same_refl]
  | changed _ hback =>
      have hne : n ≠ m := by
        rintro rfl
        exact hback (.refl n)
      have hsame : m.same n = false := by
        rw [← Bool.not_eq_true]
        exact fun hsame => hback (descends_of_same hsame)
      simp [hsame, hne]

/-! ## The changes that passes are made of -/

theorem reduces_setFunction {id : FunctionId} {f g : Function} (hf : m.function? id = some f)
    (h : f.blocks.length ≤ g.blocks.length) : m.Reduces (m.setFunction id g) := by
  refine ⟨fun other k hk => ?_, fun _ h => h⟩
  rw [function?_setFunction hf] at hk
  split at hk
  next heq =>
    obtain rfl := Option.some.inj hk
    exact ⟨f, heq ▸ hf, h⟩
  next => exact ⟨k, hk, Nat.le_refl _⟩

theorem reduces_eraseGlobal (m : Module) (id : GlobalId) : m.Reduces (m.eraseGlobal id) := by
  refine ⟨fun other f hf => ⟨f, m.function?_eraseGlobal id ▸ hf, Nat.le_refl _⟩, fun other h => ?_⟩
  rw [global?_eraseGlobal] at h
  split at h
  next => cases h
  next => exact h

theorem Step.reduces (h : m.Step n) : m.Reduces n := by
  cases h with
  | inline h =>
      obtain ⟨f, site, inlined, hf, _, _, _, hinlined, rfl⟩ := exists_of_inlineCall h
      exact reduces_setFunction hf (by rw [(Function.length_inlineBody hinlined).2]; omega)
  | replace id =>
      refine ⟨derives_mapLive (fun f => Nat.le_of_eq ?_) rfl, fun other h => ?_⟩
      · exact (f.length_mapOperands _).symm
      · rw [global?, replaceFunction, Arena.get?_mapLive, Option.isSome_map] at h
        exact h
  | eraseFunction id =>
      refine ⟨derives_eraseFunction (fun _ => Nat.le_refl _) m id, fun other h => ?_⟩
      rwa [global?_eraseFunction] at h
  | eraseGlobal id => exact m.reduces_eraseGlobal id
  | localize hf hg =>
      exact reduces_setFunction hf (Nat.le_of_eq (Localized.length_localizeInto hg).symm)
  | sweep =>
      refine ⟨derives_mapLive (fun f => Nat.le_of_eq ?_) rfl, fun _ h => h⟩
      exact f.length_sweep.symm

theorem Steps.reduces (h : m.Steps n) : m.Reduces n :=
  h.keeps (fun _ _ hstep hreduces => hreduces.trans hstep.reduces) (.refl m)

/-! ## Inlining -/

/-- A call that is inlined adds blocks to its caller. -/
theorem reported_inlineCall {caller : FunctionId} {b : BlockId} {index : Nat}
    (h : m.inlineCall caller b index = .ok (some n)) : m.Reported n true := by
  refine .of_not_reduces (Step.inline h).reduces fun hback => ?_
  obtain ⟨f, site, inlined, hf, _, _, _, hinlined, rfl⟩ := exists_of_inlineCall h
  have hlookup : (m.setFunction caller inlined).function? caller = some inlined := by
    rw [function?_setFunction hf, if_pos rfl]
  obtain ⟨g, hg, hless⟩ := hback.functions caller f hf
  obtain rfl := Option.some.inj (hlookup.symm.trans hg)
  have hlength := (Function.length_inlineBody hinlined).2
  omega

theorem reported_inlineInto {caller : FunctionId} {budget count : Nat}
    (h : plan.inlineInto caller budget m = .ok (n, count)) : m.Reported n (count > 0) := by
  refine inlineInto_run (Q := fun m n count => m.Reported n (count > 0)) (fun _ => .unchanged) ?_ h
  intro m next n b index count _ hcall hrest
  have hreported := (reported_inlineCall hcall).trans hrest
  rwa [Bool.true_or, ← decide_eq_true (Nat.zero_lt_succ count)] at hreported

theorem reported_inlineAll {budget count : Nat} (h : plan.inlineAll budget m = .ok (n, count)) :
    m.Reported n (count > 0) := by
  refine foldlM_induction (fun state => m.Reported state.1 (state.2 > 0)) ?_ .unchanged
    (mapError_eq_ok.mp h)
  intro caller _ state next hstate hnext
  obtain ⟨⟨last, more⟩, hlast, hnext⟩ := bind_eq_ok.mp hnext
  obtain rfl := Except.ok.inj hnext
  have hsum : decide (state.2 + more > 0) = (decide (state.2 > 0) || decide (more > 0)) := by
    rw [← Bool.decide_or, decide_eq_decide]
    omega
  rw [hsum]
  exact hstate.trans (reported_inlineInto hlast)

/-- A plan forces functions of the module only. -/
theorem reported_eraseForced {config : Config} {graph : CallGraph}
    (hplan : Plan.compute config m graph = .ok plan) (hkinds : n.kinds = m.kinds) :
    n.Reported (plan.eraseForced n)
      (!((plan.forced.filterMap m.function?).map Function.name).isEmpty) := by
  have hlive : ∀ id ∈ plan.forced, (m.function? id).isSome = true ∧
      (n.function? id).isSome = true := by
    intro id hid
    have hkind := ((Plan.mem_forced hplan).mp hid).1
    refine ⟨?_, ?_⟩
    · rw [get?_kinds] at hkind
      exact Option.isSome_map ▸ Option.isSome_of_eq_some hkind
    · rw [← hkinds, get?_kinds] at hkind
      exact Option.isSome_map ▸ Option.isSome_of_eq_some hkind
  cases hforced : plan.forced with
  | nil =>
      rw [Plan.eraseForced, hforced]
      exact .unchanged
  | cons id forced =>
      obtain ⟨hid, hid'⟩ := hlive id (hforced ▸ List.mem_cons_self)
      obtain ⟨f, hf⟩ := Option.isSome_iff_exists.mp hid
      have hlost : (plan.eraseForced n).function? id = none := by
        have hkind : (plan.eraseForced n).kinds.get? id = none := by
          rw [kinds_eraseForced, Arena.get?_foldl_erase, hforced, if_pos List.mem_cons_self]
        rw [get?_kinds] at hkind
        exact Option.map_eq_none_iff.mp hkind
      rw [List.filterMap_cons_some hf]
      exact .of_function (steps_eraseForced plan n).reduces hid' hlost

theorem reported_prune (m : Module) :
    m.Reported m.prune (m.unusedFunctions.length > 0 || m.unusedGlobals.length > 0) := by
  have hreduces := m.steps_prune.reduces
  cases hfunctions : m.unusedFunctions with
  | cons id ids =>
      obtain ⟨hlive, hunused⟩ := List.mem_filter.mp
        (hfunctions ▸ List.mem_cons_self : id ∈ m.unusedFunctions)
      have hlost : m.prune.function? id = none := by
        rw [function?_prune, if_neg (by simpa using hunused)]
      exact .of_function hreduces (Arena.mem_ids.mp hlive) hlost
  | nil =>
      cases hglobals : m.unusedGlobals with
      | cons id ids =>
          obtain ⟨hlive, hunused⟩ := List.mem_filter.mp
            (hglobals ▸ List.mem_cons_self : id ∈ m.unusedGlobals)
          have hlost : m.prune.global? id = none := by
            rw [global?_prune, if_neg (by simpa using hunused)]
          exact .of_global hreduces (Arena.mem_ids.mp hlive) hlost
      | nil =>
          rw [prune, hfunctions, hglobals]
          exact .unchanged

/-! ## Localization and sweeping -/

/-- All globals that have owners are moved, so none of them is left. -/
theorem reported_localize {owners : List (GlobalId × FunctionId)} {names : List String}
    (howners : m.owners = .ok owners) (h : m.localize owners = .ok (n, names)) :
    m.Reported n (!owners.isEmpty) := by
  cases owners with
  | nil =>
      obtain ⟨rfl, _⟩ := Prod.mk.inj (Except.ok.inj h)
      exact .unchanged
  | cons entry owners =>
      have hlive : entry.1 ∈ m.globals.ids := by
        rw [← (owners_spec howners).1]
        exact List.mem_cons_self
      have hlost : n.global? entry.1 = none := by
        rw [Option.eq_none_iff_forall_ne_some]
        intro g hg
        have hmem : (entry.1, g) ∈ n.globals.entries := Arena.mem_entries.mpr hg
        rw [(census_localize_owners howners h).2.1] at hmem
        cases hmem
      exact .of_global (steps_localize h).reduces (Arena.mem_ids.mp hlive) hlost

theorem length_filter_isDeadCall (instructions : List Instruction) :
    (instructions.filter fun i => !i.op.isDeadCall).length +
      ((instructions.map (·.op)).filter Operation.isDeadCall).length = instructions.length := by
  rw [List.filter_map, List.length_map,
    List.length_eq_length_filter_add (l := instructions) fun i => i.op.isDeadCall, Nat.add_comm]
  rfl

theorem length_instructions_sweep (f : Function) :
    f.sweep.instructions.length + f.deadCalls.length = f.instructions.length := by
  have hoperands : f.sweep.instructions.length = f.dropDeadCalls.instructions.length := by
    rw [Function.sweep_eq]
    simp [Function.instructions, Function.mapOperands, Block.mapOperands, List.flatMap_map,
      List.length_flatMap]
  rw [hoperands]
  simp only [Function.instructions, Function.dropDeadCalls, Function.deadCalls, List.flatMap_map,
    Block.mapInstructions]
  induction f.blocks with
  | nil => rfl
  | cons block blocks ih =>
      have hfirst := length_filter_isDeadCall block.instructions
      simp only [List.flatMap_cons, List.length_append] at ih ⊢
      omega

/-- Each call that is swept is an instruction less. -/
theorem instructionCount_sweep (m : Module) :
    m.sweep.instructionCount + m.deadCallCount = m.instructionCount := by
  rw [instructionCount, sweep, Arena.entries_mapLive, deadCallCount, instructionCount]
  induction m.functions.entries with
  | nil => rfl
  | cons entry entries ih =>
      have hfirst := length_instructions_sweep entry.2
      simp only [List.map_cons, List.flatMap_cons, List.length_append] at ih ⊢
      omega

theorem reported_sweep (m : Module) : m.Reported m.sweep (m.deadCallCount > 0) := by
  by_cases hdead : m.deadCallCount = 0
  · rw [sweep_of_deadCallCount hdead, hdead]
    exact .unchanged
  · have hcount := m.instructionCount_sweep
    have hreduces := (Step.sweep m).reduces
    rw [decide_eq_true (Nat.pos_of_ne_zero hdead)]
    refine .changed ⟨hreduces, fun _ => by omega⟩ fun hback => ?_
    have hmore := hback.instructions hreduces
    omega

end Module

/-! ## Passes -/

namespace Pass

def Truthful (pass : Pass) : Prop :=
  ∀ stage next modified, pass stage = .ok (next, modified) →
    stage.module.Reported next.module modified

theorem inlining_truthful (config : Config) (budget : Nat) : (inlining config budget).Truthful := by
  intro stage next modified h
  rw [inlining_outcome] at h
  obtain ⟨plan, hplan, h⟩ := bind_eq_ok.mp h
  obtain ⟨_, _, h⟩ := bind_eq_ok.mp h
  obtain ⟨⟨inlined, count⟩, hinlined, h⟩ := bind_eq_ok.mp h
  obtain ⟨remaining, hremaining, h⟩ := bind_eq_ok.mp h
  obtain rfl := Plan.eraseForced_of_eq_ok (mapError_eq_ok.mp hremaining)
  obtain ⟨rfl, rfl⟩ := Prod.mk.inj (Except.ok.inj h)
  have hkinds := (Module.sameCensus_inlineAll hinlined).kinds
  have herased := Module.reported_eraseForced hplan hkinds
  have hpruned := (plan.eraseForced inlined).reported_prune
  have hreported := ((Module.reported_inlineAll hinlined).trans herased).trans hpruned
  rwa [← Bool.or_assoc] at hreported

theorem localization_truthful : Truthful localization := by
  intro stage next modified h
  rw [localization_outcome] at h
  obtain ⟨owners, howners, h⟩ := bind_eq_ok.mp h
  obtain ⟨⟨localized, names⟩, hlocalized, h⟩ := bind_eq_ok.mp h
  obtain ⟨rfl, rfl⟩ := Prod.mk.inj (Except.ok.inj h)
  exact Module.reported_localize howners (mapError_eq_ok.mp hlocalized)

theorem sweeping_truthful : Truthful sweeping := by
  intro stage next modified h
  obtain ⟨rfl, rfl⟩ := Prod.mk.inj (Except.ok.inj h)
  exact stage.module.reported_sweep

theorem integrity_truthful : Truthful integrity := by
  intro stage next modified h
  have hsame := of_integrity h
  rw [integrity_of_verified hsame.2] at h
  obtain ⟨rfl, rfl⟩ := Prod.mk.inj (Except.ok.inj h)
  exact .unchanged

/-- Truthful passes are truthful as a whole. -/
theorem reported_runAll {passes : List Pass} (hpasses : ∀ pass ∈ passes, Truthful pass)
    {stage last : Stage} (h : runAll passes stage = (.ok modified, last)) :
    stage.module.Reported last.module modified := by
  induction passes generalizing stage modified with
  | nil =>
      obtain ⟨hmodified, rfl⟩ := Prod.mk.inj h
      obtain rfl := Except.ok.inj hmodified
      exact .unchanged
  | cons pass rest ih =>
      obtain ⟨hpass, hrest⟩ := List.forall_mem_cons.mp hpasses
      obtain ⟨next, first, others, hnext, hlast⟩ := exists_of_runAll_cons h
      rw [runAll_cons hnext hlast] at h
      obtain ⟨hmodified, _⟩ := Prod.mk.inj h
      obtain rfl := Except.ok.inj hmodified
      exact (hpass stage next first hnext).trans (ih hrest hlast)

theorem standard_truthful (config : Config) (budget : Nat) :
    ∀ pass ∈ standard config budget, Truthful pass := by
  simp only [standard, List.forall_mem_cons]
  exact ⟨inlining_truthful config budget, localization_truthful, sweeping_truthful,
    integrity_truthful, List.forall_mem_nil _⟩

/-- Each of the standard passes says that it has modified the module just if the module after it
is another one than the module before it, and so do all of them in a row. It makes no difference
whether the name tables are compared as maps or with the order of their entries. -/
theorem modifications_reported {config : Config} {budget : Nat} {stage last : Stage}
    {modified : Bool}
    (h : (∃ pass ∈ standard config budget, pass stage = .ok (last, modified)) ∨
      runAll (standard config budget) stage = (.ok modified, last)) :
    (modified = true ↔ last.module ≠ stage.module) ∧
      modified = !stage.module.same last.module := by
  have htruthful := standard_truthful config budget
  rcases h with ⟨pass, hpass, h⟩ | h
  · exact (htruthful pass hpass stage last modified h).eq_not_same
  · exact (reported_runAll htruthful h).eq_not_same

/-- All passes together modify the module, sweeping alone does not. -/
theorem counter_modifications_reported :
    (∃ last, runAll (standard {} 1) { module := .counter } = (.ok true, last) ∧
      last.module ≠ .counter) ∧
    ∃ last, sweeping { module := .counter } = .ok (last, false) ∧
      Module.counter.same last.module = true := by
  have hmodified : (runAll (standard {} 1) { module := .counter }).1 = .ok true := by
    unfold standard runAll inlining
    simp only [Module.compute_counter]
    decide +kernel
  have hall : runAll (standard {} 1) { module := .counter } =
      (.ok true, (runAll (standard {} 1) { module := .counter }).2) := Prod.ext hmodified rfl
  have hdead : Module.counter.deadCallCount = 0 := by decide +kernel
  have hswept : sweeping { module := .counter } =
      .ok ({ module := Module.counter.sweep }, false) := by
    rw [outcome, sweeping]
    simp only [hdead]
    rfl
  have hpass : sweeping ∈ standard {} 1 := by simp [standard]
  have hsame := (modifications_reported (.inl ⟨sweeping, hpass, hswept⟩)).2
  rw [Eq.comm, Bool.not_eq_false'] at hsame
  exact ⟨⟨_, hall, (modifications_reported (.inr hall)).1.mp rfl⟩, _, hswept, hsame⟩

end Pass

end Monolith

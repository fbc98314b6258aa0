import Mathlib.Data.Fintype.Basic
import Mathlib.Data.List.Chain
import Mathlib.Order.WellFounded
import Monolith.Proofs.Flattening.EarlyRejections
import Monolith.Proofs.Inlining.Forced

/-! # Calls counted along chains

A plan that has been checked inlines functions that do not call each other in a cycle. So a
function can be given the sum of what its calls of such functions are worth, where the worth
of a call depends on the function that is called.
-/

namespace Monolith

variable {ids : List FunctionId} {id : FunctionId}

def Function.directCallees (f : Function) : List FunctionId := f.callees.filterMap Operand.function?

theorem Function.directCallees_eq (f : Function) :
    f.directCallees = f.calls.filterMap Operation.directCallee? := by
  have hcalls : ∀ instructions : List Instruction,
      (instructions.filterMap (·.op.callee?)).filterMap Operand.function? =
        (callsOf instructions).filterMap Operation.directCallee? := by
    intro instructions
    rw [callsOf, List.filterMap_filterMap, List.filterMap_filter, List.filterMap_map]
    refine List.filterMap_congr fun i _ => ?_
    cases hop : i.op <;> simp [hop, Operation.directCallee?, Operation.callee?, Operation.isCall]
  simp only [directCallees, callees, calls, blockCalls, List.filterMap_flatMap, hcalls,
    ← List.flatMap_def]

namespace Plan

/-- The sum of the weights of the functions that are inlined. -/
def sumForced (plan : Plan) (weight : FunctionId → Nat) : List FunctionId → Nat
  | [] => 0
  | id :: ids => (if plan.forces id then weight id else 0) + plan.sumForced weight ids

section

variable {plan : Plan} {weight other : FunctionId → Nat}

theorem sumForced_append (front back : List FunctionId) :
    plan.sumForced weight (front ++ back) =
      plan.sumForced weight front + plan.sumForced weight back := by
  induction front with
  | nil => simp [sumForced]
  | cons id front ih => simp only [List.cons_append, sumForced, ih, Nat.add_assoc]

/-- The order of calls does not matter for what they are worth. -/
theorem sumForced_perm {others : List FunctionId} (h : ids.Perm others) :
    plan.sumForced weight ids = plan.sumForced weight others := by
  induction h with
  | nil => rfl
  | cons id _ ih => simp only [sumForced, ih]
  | swap id other ids =>
      simp only [sumForced]
      omega
  | trans _ _ ih ih' => exact ih.trans ih'

theorem sumForced_congr (h : ∀ id ∈ ids, plan.forces id = true → weight id = other id) :
    plan.sumForced weight ids = plan.sumForced other ids := by
  induction ids with
  | nil => rfl
  | cons id ids ih =>
      obtain ⟨hid, hids⟩ := List.forall_mem_cons.mp h
      rw [sumForced, sumForced, ih hids]
      refine congrArg (· + _) ?_
      split
      next hforces => exact hid hforces
      next => rfl

theorem sumForced_eq_zero (h : ∀ id ∈ ids, plan.forces id = false) :
    plan.sumForced weight ids = 0 := by
  induction ids with
  | nil => rfl
  | cons id ids ih =>
      obtain ⟨hid, hids⟩ := List.forall_mem_cons.mp h
      simp [sumForced, hid, ih hids]

theorem le_sumForced (hid : id ∈ ids) (hforces : plan.forces id = true) :
    weight id ≤ plan.sumForced weight ids := by
  rw [sumForced_perm (List.perm_cons_erase hid), sumForced, if_pos hforces]
  exact Nat.le_add_right _ _

end

def Inlines (plan : Plan) (m : Module) (id callee : FunctionId) : Prop :=
  plan.forces callee = true ∧ m.CallsDirectly id callee

/-- Some chain of calls that are inlined leads from the root to a variadic function. -/
def ReachesVariadic (plan : Plan) (m : Module) : Prop :=
  ∃ id f, Relation.TransGen (plan.Inlines m) plan.root id ∧ m.function? id = some f ∧
    f.isVarArg = true

/-- How many calls are inlined for each function, and how many calls of each function that is
not inlined come of it. -/
structure Totals (plan : Plan) (m : Module) where
  inlined : FunctionId → Nat
  calls : FunctionId → FunctionId → Nat
  inlined_eq : ∀ id f, m.function? id = some f →
    inlined id = plan.sumForced (fun callee => 1 + inlined callee) f.directCallees
  calls_eq : ∀ id f target, m.function? id = some f →
    calls id target = f.directCallees.count target +
      plan.sumForced (fun callee => calls callee target) f.directCallees

end Plan

theorem Module.callsDirectly_iff {m : Module} {callee : FunctionId} :
    m.CallsDirectly id callee ↔ ∃ f, m.function? id = some f ∧ callee ∈ f.directCallees := by
  refine exists_congr fun f => and_congr_right fun _ => ?_
  rw [Function.directCallees, List.mem_filterMap]
  constructor
  · exact fun hmem => ⟨_, hmem, rfl⟩
  · rintro ⟨operand, hmem, hfunction⟩
    rwa [← Module.function?_eq_some_iff.mp hfunction]

/-! ## A checked plan -/

namespace Plan

variable {config : Config} {m : Module} {plan : Plan} (h : m.checkPlan config = .ok plan)
include h

theorem rooted_of_checkPlan : m.Rooted config plan.root := by
  obtain ⟨hinput, hplan, _⟩ := Module.checkPlan_eq_ok h
  have hverified := Module.defects_of_checkInput hinput
  refine ⟨hverified, (compute_eq_ok hplan).1, ?_⟩
  simpa [Module.get?_kinds] using kinds_root (Module.defects_eq_nil_iff.mp hverified).1 hplan

theorem forces_iff : plan.forces id = true ↔ m.Inlinable plan.root id :=
  forces_iff_inlinable (Module.checkPlan_eq_ok h).2.1

/-- What the plan inlines does not call itself in a cycle. -/
theorem no_recursion (path : List FunctionId) : ¬m.Recursion plan.root path := by
  have hchecked := (m.checked_checkPlan config).planChecked (rooted_of_checkPlan h)
  rw [h] at hchecked
  cases hchecked with
  | admitted _ hcycle => exact hcycle path

/-- No chain of calls that are inlined comes back to where it began. -/
theorem not_transGen_inlines (id : FunctionId) : ¬Relation.TransGen (plan.Inlines m) id id := by
  intro hcycle
  obtain ⟨last, hpath, hforces, hlast⟩ := Relation.TransGen.tail'_iff.mp hcycle
  obtain ⟨between, hchain, hend⟩ := List.exists_isChain_cons_of_relationReflTransGen hpath
  have hbetween : ∀ other ∈ between, plan.forces other = true := by
    clear hend
    generalize id = start at hchain
    induction between generalizing start with
    | nil => simp
    | cons next between ih =>
        obtain ⟨hstep, hchain⟩ := List.isChain_cons_cons.mp hchain
        exact List.forall_mem_cons.mpr ⟨hstep.1, ih next hchain⟩
  refine no_recursion h (id :: (between ++ [id])) ⟨⟨id, between, rfl⟩, ?_, ?_⟩
  · simp only [← forces_iff h]
    exact forall_mem_closed_path.mpr ⟨hforces, hbetween⟩
  · rw [← List.cons_append, List.isChain_append]
    refine ⟨hchain.imp fun _ _ hstep => hstep.2, by simp, ?_⟩
    rw [List.getLast?_eq_some_getLast (List.cons_ne_nil _ _), hend]
    simpa using hlast

/-- So chains of calls that are inlined are finite. -/
theorem wellFounded_inlines : WellFounded fun callee id => plan.Inlines m id callee := by
  have hlt : ∀ {id callee}, plan.Inlines m id callee → callee < m.functions.length := by
    rintro id callee ⟨hforces, _⟩
    obtain ⟨_, f, hf, _⟩ := (forces_iff h).mp hforces
    exact (List.getElem?_eq_some_iff.mp (Arena.get?_eq_some_iff.mp hf)).1
  -- there are finitely many functions, and no chain between them is a cycle
  let reaches (callee id : Fin m.functions.length) : Prop :=
    Relation.TransGen (plan.Inlines m) id callee
  have htrans : IsTrans _ reaches := ⟨fun _ _ _ hfirst hsecond => hsecond.trans hfirst⟩
  have hirrefl : Std.Irrefl reaches := ⟨fun id => not_transGen_inlines h id⟩
  have hwf := Finite.wellFounded_of_trans_of_irrefl reaches
  have hacc : ∀ id : Fin m.functions.length,
      Acc (fun callee id => plan.Inlines m id callee) id.val := by
    intro id
    induction id using hwf.induction with
    | _ id ih => exact ⟨_, fun callee hcall => ih ⟨callee, hlt hcall⟩ (.single hcall)⟩
  exact ⟨fun id => ⟨_, fun callee hcall => hacc ⟨callee, hlt hcall⟩⟩⟩

/-- A weight that is made of an own part and a part for each call that is inlined. -/
theorem exists_weight (own : FunctionId → Nat) (each : Nat) :
    ∃ weight : FunctionId → Nat, ∀ id f, m.function? id = some f →
      weight id = own id + plan.sumForced (fun callee => each + weight callee) f.directCallees := by
  classical
  have hwf := wellFounded_inlines h
  refine ⟨hwf.fix fun id weight => own id + plan.sumForced (fun callee =>
    each + if hcall : plan.Inlines m id callee then weight callee hcall else 0)
      ((m.function? id).elim [] Function.directCallees), fun id f hf => ?_⟩
  rw [hwf.fix_eq, hf]
  refine congrArg (own id + ·) (sumForced_congr fun callee hcallee hforces => ?_)
  rw [dif_pos ⟨hforces, Module.callsDirectly_iff.mpr ⟨f, hf, hcallee⟩⟩]

/-- So every function has totals. -/
theorem nonempty_totals : Nonempty (plan.Totals m) := by
  obtain ⟨inlined, hinlined⟩ := exists_weight h (fun _ => 0) 1
  have hcalls := fun target => exists_weight h
    (fun id => ((m.function? id).elim [] Function.directCallees).count target) 0
  choose calls hcalls using hcalls
  refine ⟨⟨inlined, fun id target => calls target id, fun id f hf => ?_, fun id f target hf => ?_⟩⟩
  · simpa using hinlined id f hf
  · simpa [hf] using hcalls target id f hf

end Plan

end Monolith

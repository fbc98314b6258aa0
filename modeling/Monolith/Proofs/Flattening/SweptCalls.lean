import Monolith.Proofs.Flattening.FlattenedModule
import Monolith.Proofs.Verify.WellFormedModule

/-! # What sweeping leaves

Sweeping removes the calls of poison and makes their results poison. It does so once, so a
call of such a result is left as a call of poison. Where there is no such call, no call of
poison is left.
-/

namespace Monolith

variable {op : Operation} {x : ValueId} {b : BlockId}

def Operation.CallsPoison (op : Operation) : Prop :=
  ∃ c ty, op.callee? = some (.const c) ∧ (Constant.poison ty).Part c

theorem Constant.containsPoison_iff {c : Constant} :
    c.containsPoison = true ↔ ∃ ty, (Constant.poison ty).Part c := by
  rw [containsPoison, List.any_eq_true]
  constructor
  · rintro ⟨e, he, hpoison⟩
    cases e with
    | poison ty => exact ⟨ty, mem_nodes_iff.mp he⟩
    | _ => cases hpoison
  · rintro ⟨ty, hpart⟩
    exact ⟨.poison ty, mem_nodes_iff.mpr hpart, rfl⟩

theorem Operation.isDeadCall_iff : op.isDeadCall = true ↔ op.CallsPoison := by
  rw [isDeadCall, Option.any_eq_true]
  constructor
  · rintro ⟨callee, hcallee, hpoison⟩
    cases callee with
    | var x => cases hpoison
    | const c =>
        obtain ⟨ty, hpart⟩ := Constant.containsPoison_iff.mp hpoison
        exact ⟨c, ty, hcallee, hpart⟩
  · rintro ⟨c, ty, hcallee, hpart⟩
    exact ⟨.const c, hcallee, Constant.containsPoison_iff.mpr ⟨ty, hpart⟩⟩

namespace Function

def DeadResult (f : Function) (x : ValueId) : Prop :=
  ∃ b, ∃ i ∈ f.body b, i.op.CallsPoison ∧ i.op.dest? = some x

/-- A call in the block is a call of what a call of poison gives. -/
def CallsDeadResult (f : Function) (b : BlockId) : Prop :=
  ∃ i ∈ f.body b, ∃ x, i.op.callee? = some (.var x) ∧ f.DeadResult x

end Function

section

variable {f : Function}

namespace Function

theorem mem_deadCalls : op ∈ f.deadCalls ↔ ∃ b, ∃ i ∈ f.body b, i.op = op ∧ op.CallsPoison := by
  simp only [deadCalls, List.mem_flatMap, List.mem_filter, List.mem_map,
    Operation.isDeadCall_iff]
  constructor
  · rintro ⟨block, hblock, ⟨i, hi, rfl⟩, hdead⟩
    obtain ⟨b, hb⟩ := List.getElem?_of_mem hblock
    exact ⟨b, i, by rwa [body_eq hb], rfl, hdead⟩
  · rintro ⟨b, i, hi, rfl, hdead⟩
    obtain ⟨block, hb, hi⟩ := block?_of_mem_body hi
    exact ⟨block, List.mem_of_getElem? hb, ⟨i, hi, rfl⟩, hdead⟩

theorem lookup_deadResults_isSome : (f.deadResults.lookup x).isSome = true ↔ f.DeadResult x := by
  rw [List.lookup_isSome_iff]
  simp only [beq_iff_eq]
  constructor
  · rintro ⟨⟨d, ty⟩, hmem, rfl⟩
    obtain ⟨op, hop, hresult⟩ := List.mem_filterMap.mp hmem
    obtain ⟨b, i, hi, rfl, hdead⟩ := mem_deadCalls.mp hop
    refine ⟨b, i, hi, hdead, ?_⟩
    split at hresult
    next hcall =>
      rw [hcall]
      exact congrArg (Option.map Prod.fst) hresult
    next => cases hresult
  · rintro ⟨b, i, hi, hdead, hdest⟩
    have hop := mem_deadCalls.mpr ⟨b, i, hi, rfl, hdead⟩
    obtain ⟨c, _, hcallee, _⟩ := hdead
    cases hcall : i.op with
    | call dest ty callee args =>
        rw [hcall] at hdest hop
        obtain rfl : dest = some x := hdest
        exact ⟨(x, ty), List.mem_filterMap.mpr ⟨_, hop, rfl⟩, rfl⟩
    | _ =>
        rw [hcall] at hcallee
        cases hcallee

end Function

/-! ## What is left -/

theorem Operand.fill_eq_var {results : List (ValueId × Ty)} {o : Operand}
    (h : o.fill results = .var x) : results.lookup x = none := by
  cases o with
  | const c => cases h
  | var y =>
      cases hy : results.lookup y with
      | none =>
          rw [fill, hy] at h
          obtain rfl := Operand.var.inj h
          exact hy
      | some ty =>
          rw [fill, hy] at h
          cases h

namespace Function

theorem exists_of_mem_mapOperands {g : Operand → Operand} {o : Operand}
    (h : o ∈ (f.mapOperands g).operands) : ∃ old, g old = o := by
  rw [operands_mapOperands] at h
  obtain ⟨old, _, hold⟩ := List.mem_map.mp h
  exact ⟨old, hold⟩

theorem body_mapOperands (f : Function) (change : Operand → Operand) (b : BlockId) :
    (f.mapOperands change).body b = (f.body b).map (·.mapOperands change) := by
  rw [body, body, block?, block?, mapOperands, List.getElem?_map]
  cases f.blocks[b]? <;> rfl

theorem body_sweep (f : Function) (b : BlockId) :
    f.sweep.body b = ((f.body b).filter fun i => !i.op.isDeadCall).map
      (·.mapOperands (.fill f.deadResults)) := by
  rw [sweep_eq, body_mapOperands, body, body, block?, block?, dropDeadCalls, List.getElem?_map]
  cases f.blocks[b]? <;> rfl

theorem mem_body_sweep {i : Instruction} :
    i ∈ f.sweep.body b ↔
      ∃ old ∈ f.body b, ¬old.op.CallsPoison ∧ old.mapOperands (.fill f.deadResults) = i := by
  simp [body_sweep, ← Operation.isDeadCall_iff, and_assoc]

/-- A result that was swept away is read nowhere. -/
theorem var_not_mem_sweep (h : f.DeadResult x) : .var x ∉ f.sweep.operands := by
  intro hx
  rw [sweep_eq] at hx
  obtain ⟨o, hfill⟩ := exists_of_mem_mapOperands hx
  have hsome := lookup_deadResults_isSome.mpr h
  rw [Operand.fill_eq_var hfill] at hsome
  cases hsome

/-- The calls that sweeping makes calls of poison are those of the results it swept away. -/
theorem callsPoison_fill (h : ¬op.CallsPoison) :
    (op.mapOperands (.fill f.deadResults)).CallsPoison ↔
      ∃ x, op.callee? = some (.var x) ∧ f.DeadResult x := by
  unfold Operation.CallsPoison
  rw [Operation.callee?_mapOperands]
  constructor
  · rintro ⟨c, ty, hcallee, hpart⟩
    obtain ⟨callee, hold, hfill⟩ := Option.map_eq_some_iff.mp hcallee
    cases callee with
    | const old =>
        obtain rfl := Operand.const.inj hfill
        exact absurd ⟨old, ty, hold, hpart⟩ h
    | var x =>
        -- a variable becomes a constant only by being filled
        refine ⟨x, hold, lookup_deadResults_isSome.mp ?_⟩
        cases hlookup : f.deadResults.lookup x with
        | some ty => rfl
        | none =>
            rw [Operand.fill, hlookup] at hfill
            cases hfill
  · rintro ⟨x, hcallee, hdead⟩
    obtain ⟨ty, hty⟩ := Option.isSome_iff_exists.mp (lookup_deadResults_isSome.mpr hdead)
    refine ⟨.poison ty, ty, ?_, .whole⟩
    rw [hcallee, Option.map_some, Operand.fill, hty]
    rfl

/-- A call of poison is left just where a call names what was swept away. -/
theorem callsPoison_sweep : (∃ i ∈ f.sweep.body b, i.op.CallsPoison) ↔ f.CallsDeadResult b := by
  constructor
  · rintro ⟨swept, hswept, hpoison⟩
    obtain ⟨i, hi, hkept, rfl⟩ := mem_body_sweep.mp hswept
    exact ⟨i, hi, (callsPoison_fill hkept).mp hpoison⟩
  · rintro ⟨i, hi, x, hcallee, hdead⟩
    have hkept : ¬i.op.CallsPoison := by
      rintro ⟨c, ty, hconst, _⟩
      rw [hcallee] at hconst
      cases hconst
    exact ⟨_, mem_body_sweep.mpr ⟨i, hi, hkept, rfl⟩,
      (callsPoison_fill hkept).mpr ⟨x, hcallee, hdead⟩⟩

/-- Such a call is a call of poison itself, not of a constant around it. -/
theorem isPoison_sweep :
    (∃ i ∈ f.sweep.body b, ∃ o, i.op.callee? = some o ∧ o.isPoison = true) ↔
      f.CallsDeadResult b := by
  rw [← callsPoison_sweep]
  constructor
  · rintro ⟨i, hi, o, hcallee, hpoison⟩
    obtain ⟨ty, rfl⟩ := Module.isPoison_iff.mp hpoison
    exact ⟨i, hi, .poison ty, ty, hcallee, .whole⟩
  · rintro ⟨i, hi, c, ty, hcallee, hpart⟩
    obtain ⟨block, hb, hmem⟩ := block?_of_mem_body hi
    have hcalled : .const c ∈ f.sweep.callees :=
      mem_callees.mpr ⟨block, List.mem_of_getElem? hb, i, hmem, hcallee⟩
    exact ⟨i, hi, .const c, hcallee,
      isPoison_of_mem_sweep hcalled (Constant.containsPoison_iff.mpr ⟨ty, hpart⟩)⟩

theorem deadCalls_sweep : f.sweep.deadCalls = [] ↔ ∀ b, ¬f.CallsDeadResult b := by
  simp only [List.eq_nil_iff_forall_not_mem, mem_deadCalls, ← callsPoison_sweep]
  constructor
  · rintro h b ⟨i, hi, hpoison⟩
    exact h i.op ⟨b, i, hi, rfl, hpoison⟩
  · rintro h op ⟨b, i, hi, rfl, hpoison⟩
    exact h b ⟨i, hi, hpoison⟩

end Function

end

end Monolith

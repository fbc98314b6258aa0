import Monolith.Proofs.Code.ConstantNodes
import Monolith.Proofs.Verify.DefectChecks

/-! # Places of constants

A module holds constants in operands and in initializers. References to a function are counted
place by place, and the defects that verifying finds in constants are found place by place.
-/

namespace Monolith

namespace Arena

variable {α β γ ι : Type}

theorem map_snd_entries (arena : Arena α) : arena.entries.map Prod.snd = arena.filterMap id := by
  have hslot : ∀ entry : Option α × Nat, (entry.1.map (entry.2, ·)).map Prod.snd = entry.1 := by
    intro entry
    cases entry.1 <;> rfl
  rw [entries, List.map_filterMap]
  simp only [hslot]
  have hfst : arena.zipIdx.filterMap Prod.fst = (arena.zipIdx.map Prod.fst).filterMap id := by
    rw [List.filterMap_map]
    rfl
  rw [hfst, List.zipIdx_map_fst]

/-- What the entities of an arena list is what its slots list. -/
theorem flatMap_entries (arena : Arena α) (listed : α → List β) :
    (arena.entries.flatMap fun entry => listed entry.2) =
      arena.flatMap fun slot => slot.elim [] listed := by
  have hlive : ∀ slots : List (Option α), (slots.filterMap id).flatMap listed =
      slots.flatMap fun slot => slot.elim [] listed := by
    intro slots
    induction slots with
    | nil => rfl
    | cons slot slots ih => cases slot <;> simpa using ih
  rw [← hlive, ← map_snd_entries, List.flatMap_map]

/-- What is found under the ids of an arena is counted entity by entity. -/
theorem encard_get? [BEq γ] (arena : Arena α) (get : α → ι → Option β) {b : β}
    (listed : α → List γ) {c : γ}
    (h : ∀ a, {i | get a i = some b}.encard = ((listed a).count c : ℕ)) :
    {k : Nat × ι | (arena.get? k.1).bind (get · k.2) = some b}.encard =
      ((arena.entries.flatMap fun entry => listed entry.2).count c : ℕ) := by
  have hslots : {k : Nat × ι | (arena.get? k.1).bind (get · k.2) = some b} =
      {k | arena[k.1]?.bind (fun slot => slot.bind (get · k.2)) = some b} := by
    ext k
    change (arena[k.1]?.join.bind _ = _) ↔ (arena[k.1]?.bind _ = _)
    cases arena[k.1]? <;> rfl
  rw [hslots, flatMap_entries]
  refine encard_positions (fun (slot : Option α) i => slot.bind (get · i)) _ fun slot _ => ?_
  cases slot with
  | none => simp
  | some a => exact h a

end Arena

def Operand.node? (path : List Nat) (o : Operand) : Option Constant :=
  o.const?.bind (·.node? path)

theorem Operand.encard_node? {id : FunctionId} (o : Operand) :
    {path | o.node? path = some (.function id)}.encard = (o.functions.count id : ℕ) := by
  cases o with
  | var x => simp [node?, const?, functions]
  | const c => exact c.encard_node?

namespace Module

/-! ## Where constants stand -/

/-- Where a module has an operand or the initializer of a global. -/
inductive Place where
  | operand (user : FunctionId) (index : Nat)
  | initializer (holder : GlobalId)

def constantAt? (m : Module) : Place → Option Constant
  | .operand user index => (m.function? user).bind fun f => f.operands[index]?.bind Operand.const?
  | .initializer holder => (m.global? holder).bind Global.initializer

/-- The node at the end of a path in the constant at the place. -/
def nodeAt? (m : Module) (place : Place) (path : List Nat) : Option Constant :=
  (m.constantAt? place).bind fun c => c.node? path

/-! ## Counting -/

section

variable (m : Module) (id : FunctionId)

theorem encard_operands : {spot : Nat × Nat × List Nat |
      m.nodeAt? (.operand spot.1 spot.2.1) spot.2.2 = some (.function id)}.encard =
    ((m.functions.entries.flatMap fun entry => entry.2.operands.flatMap Operand.functions).count
      id : ℕ) := by
  have hbody : ∀ f : Function,
      {spot : Nat × List Nat | f.operands[spot.1]?.bind (fun o => o.node? spot.2) =
        some (.function id)}.encard = ((f.operands.flatMap Operand.functions).count id : ℕ) :=
    fun f => encard_positions (fun (o : Operand) path => o.node? path) _ fun o _ => o.encard_node?
  rw [← m.functions.encard_get? _ (fun f => f.operands.flatMap Operand.functions) hbody]
  simp only [nodeAt?, constantAt?, function?, Operand.node?, Option.bind_assoc]

theorem encard_initializers : {spot : Nat × List Nat |
      m.nodeAt? (.initializer spot.1) spot.2 = some (.function id)}.encard =
    ((m.globals.entries.flatMap fun entry =>
      entry.2.initializer.toList.flatMap Constant.functions).count id : ℕ) := by
  have hbody : ∀ g : Global, {path | g.initializer.bind (fun c => c.node? path) =
      some (.function id)}.encard =
        ((g.initializer.toList.flatMap Constant.functions).count id : ℕ) := by
    intro g
    cases g.initializer with
    | none => simp
    | some c => simpa [Constant.functionUses] using c.encard_node?
  rw [← m.globals.encard_get? _ (fun g => g.initializer.toList.flatMap Constant.functions) hbody]
  simp only [nodeAt?, constantAt?, global?, Option.bind_assoc]

theorem functions_constants : m.constants.flatMap Constant.functions =
    (m.functions.entries.flatMap fun entry => entry.2.operands.flatMap Operand.functions) ++
      m.globals.entries.flatMap fun entry =>
        entry.2.initializer.toList.flatMap Constant.functions := by
  have hoperands : ∀ operands : List Operand,
      (operands.filterMap Operand.const?).flatMap Constant.functions =
        operands.flatMap Operand.functions := by
    intro operands
    induction operands with
    | nil => rfl
    | cons o operands ih =>
        cases o <;> simp [List.filterMap_cons, Operand.const?, Operand.functions, ih]
  have hglobals : ∀ entries : List (Nat × Global),
      (entries.filterMap fun entry => entry.2.initializer).flatMap Constant.functions =
        entries.flatMap fun entry => entry.2.initializer.toList.flatMap Constant.functions := by
    intro entries
    induction entries with
    | nil => rfl
    | cons entry entries ih =>
        cases h : entry.2.initializer <;> simp [h, ih]
  rw [constants, List.flatMap_append, List.flatMap_assoc, ← hglobals]
  simp only [hoperands]

/-- There are as many references to a function as are counted. -/
theorem encard_nodeAt? :
    {spot : Place × List Nat | m.nodeAt? spot.1 spot.2 = some (.function id)}.encard =
      (m.functionUses id : ℕ) := by
  have hsplit : {spot : Place × List Nat | m.nodeAt? spot.1 spot.2 = some (.function id)} =
      (fun k : Nat × Nat × List Nat => (.operand k.1 k.2.1, k.2.2)) ''
          {k | m.nodeAt? (.operand k.1 k.2.1) k.2.2 = some (.function id)} ∪
        (fun k : Nat × List Nat => (.initializer k.1, k.2)) ''
          {k | m.nodeAt? (.initializer k.1) k.2 = some (.function id)} := by
    ext ⟨place, path⟩
    cases place <;> simp
  rw [hsplit, encard_union_image, encard_operands, encard_initializers, functionUses,
    functions_constants, List.count_append, Nat.cast_add]
  · rintro ⟨user, index, path⟩ ⟨user', index', path'⟩ heq
    simpa [and_assoc] using heq
  · rintro ⟨holder, path⟩ ⟨holder', path'⟩ heq
    simpa using heq
  · simp

end

/-! ## Defects of constants -/

theorem mem_functions_of_mem_referenceDefects {m : Module} {site site' : Site} {c : Constant}
    {id : FunctionId} (h : .erasedFunction site id ∈ m.referenceDefects site' c) :
    id ∈ c.functions := by
  obtain ⟨node, hnode, h⟩ := List.mem_filterMap.mp h
  split at h
  next => split at h <;> simp at h
  next other =>
    split at h
    next => cases h
    next =>
      obtain ⟨_, rfl⟩ := Defect.erasedFunction.inj (Option.some.inj h)
      exact List.mem_filterMap.mpr ⟨.function other, hnode, rfl⟩
  next => cases h

/-- A function that no constant mentions is not missed. -/
theorem erasedFunction_not_mem_defects {m : Module} {id : FunctionId} {site : Site}
    (h : ∀ place c, m.constantAt? place = some c → id ∉ c.functions) :
    .erasedFunction site id ∉ m.defects := by
  rw [mem_defects_iff Check.noConfusion]
  rintro (⟨holder, g, hg, hmem⟩ | ⟨user, f, hf, hmem⟩)
  · obtain ⟨c, hc, hmem | ⟨_, hmem⟩⟩ := mem_globalDefects_iff.mp hmem
    · apply h (.initializer holder) c _ (mem_functions_of_mem_referenceDefects hmem)
      simp [constantAt?, hg, hc]
    · cases hmem
  · have hmem := mem_bodyDefects_of_mem_functionDefects Check.noConfusion hmem
    obtain ⟨b, block, hblock, hmem⟩ := (mem_bodyDefects_iff Check.noConfusion).mp hmem
    rcases mem_blockDefects_iff.mp hmem with ⟨c, hc, hmem⟩ | ⟨i, _, hmem⟩
    · have hc : .const c ∈ f.operands :=
        List.mem_flatMap.mpr ⟨block, List.mem_of_getElem? hblock, hc⟩
      obtain ⟨index, hindex⟩ := List.getElem?_of_mem hc
      apply h (.operand user index) c _ (mem_functions_of_mem_referenceDefects hmem)
      simp [constantAt?, hf, hindex, Operand.const?]
    · cases check_of_mem_operationDefects hmem

theorem initializerTypeMismatch_mem_defects {m : Module} {name : String} {expected found : Ty} :
    .initializerTypeMismatch name expected found ∈ m.defects ↔
      ∃ holder g c, m.global? holder = some g ∧ g.initializer = some c ∧ c.ty ≠ g.valueType ∧
        g.name = name ∧ g.valueType = expected ∧ c.ty = found := by
  rw [mem_defects_iff Check.noConfusion]
  constructor
  · rintro (⟨holder, g, hg, h⟩ | ⟨user, f, _, h⟩)
    · obtain ⟨c, hc, h | ⟨hne, h⟩⟩ := mem_globalDefects_iff.mp h
      · cases check_of_mem_referenceDefects h
      · obtain ⟨rfl, rfl, rfl⟩ := Defect.initializerTypeMismatch.inj h
        exact ⟨holder, g, c, hg, hc, hne, rfl, rfl, rfl⟩
    · have h := mem_bodyDefects_of_mem_functionDefects Check.noConfusion h
      obtain ⟨b, block, _, h⟩ := (mem_bodyDefects_iff Check.noConfusion).mp h
      rcases mem_blockDefects_iff.mp h with ⟨c, _, h⟩ | ⟨i, _, h⟩
      · cases check_of_mem_referenceDefects h
      · cases check_of_mem_operationDefects h
  · rintro ⟨holder, g, c, hg, hc, hne, rfl, rfl, rfl⟩
    exact .inl ⟨holder, g, hg, mem_globalDefects_iff.mpr ⟨c, hc, .inr ⟨hne, rfl⟩⟩⟩

end Module

end Monolith

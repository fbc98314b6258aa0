import Monolith.Proofs.Globals.InitializerStores

/-! # Code in front of a body

Code that reads only what it defines itself may be put in front of the entry of a body, if
there are no phis in the entry. The module admits the body as before. The allocas and stores
for globals are such code.
-/

namespace Monolith

namespace Function

def prepend (f : Function) (front : List Instruction) (values : List ValueInfo) : Function :=
  { f with
    blocks := f.blocks.modify f.entry (·.mapInstructions (front ++ ·))
    values := values }

section

variable (f : Function) (front : List Instruction) (values : List ValueInfo)

theorem length_prepend : (f.prepend front values).blocks.length = f.blocks.length :=
  List.length_modify ..

theorem block?_prepend (b : BlockId) : (f.prepend front values).block? b =
    (f.block? b).map fun block =>
      if b = f.entry then block.mapInstructions (front ++ ·) else block := by
  unfold block? prepend
  rw [List.getElem?_modify]
  by_cases h : b = f.entry
  · simp [h]
  · simp [h, Ne.symm h]

theorem successors_prepend (b : BlockId) :
    (f.prepend front values).successors b = f.successors b := by
  unfold successors
  rw [block?_prepend]
  by_cases h : b = f.entry
  · cases f.block? b <;> simp [h, Block.mapInstructions]
  · cases f.block? b <;> simp [h]

/-- Code in front of the entry does not change where control goes. -/
theorem walk_prepend_iff {walk : List BlockId} :
    (f.prepend front values).Walk walk ↔ f.Walk walk := by
  have hedge : (f.prepend front values).Edge = f.Edge := by
    funext a b
    rw [edge_iff, edge_iff, successors_prepend, length_prepend]
  unfold Walk
  rw [hedge]
  rfl

theorem body_prepend_of_ne {b : BlockId} (h : b ≠ f.entry) :
    (f.prepend front values).body b = f.body b := by
  unfold body
  rw [block?_prepend]
  cases f.block? b <;> simp [h]

variable {f}

theorem body_prepend_entry (hentry : f.entry < f.blocks.length) :
    (f.prepend front values).body f.entry = front ++ f.body f.entry := by
  have hblock : f.block? f.entry = some f.blocks[f.entry] := List.getElem?_eq_getElem hentry
  unfold body
  rw [block?_prepend, hblock]
  simp

theorem defs_body_prepend (hentry : f.entry < f.blocks.length) (b : BlockId) :
    defsOf (f.body b) ⊆ defsOf ((f.prepend front values).body b) := by
  by_cases hb : b = f.entry
  · rw [hb, body_prepend_entry front values hentry, defsOf_append]
    exact List.subset_append_right _ _
  · rw [body_prepend_of_ne f front values hb]
    exact List.Subset.refl _

/-- What stands in a block then is new, or stood there before. -/
theorem mem_body_prepend (hentry : f.entry < f.blocks.length) {b : BlockId} {i : Instruction}
    (h : i ∈ (f.prepend front values).body b) : i ∈ front ∨ i ∈ f.body b := by
  by_cases hb : b = f.entry
  · rw [hb, body_prepend_entry front values hentry] at h
    rw [hb]
    exact List.mem_append.mp h
  · rw [body_prepend_of_ne f front values hb] at h
    exact .inr h

theorem mem_operands_prepend {o : Operand} (h : o ∈ (f.prepend front values).operands) :
    (∃ i ∈ front, o ∈ i.op.operands) ∨ o ∈ f.operands := by
  obtain ⟨b, block', hblock', ho⟩ := Module.mem_operands_iff.mp h
  rw [block?_prepend] at hblock'
  obtain ⟨block, hblock, rfl⟩ := Option.map_eq_some_iff.mp hblock'
  split at ho
  next =>
    rw [Block.operands, Block.instructions_mapInstructions, List.flatMap_append,
      List.append_assoc] at ho
    rcases List.mem_append.mp ho with ho | ho
    · exact .inl (List.mem_flatMap.mp ho)
    · exact .inr (Module.mem_operands_iff.mpr ⟨b, block, hblock, ho⟩)
  next => exact .inr (Module.mem_operands_iff.mpr ⟨b, block, hblock, ho⟩)

/-- A variable is defined as often as before, and as often as the new code does. -/
theorem count_prepend (hentry : f.entry < f.blocks.length) (x : ValueId) :
    (f.prepend front values).defined.count x = f.defined.count x + (defsOf front).count x := by
  have hmodify := count_flatMap_modify (List.getElem?_eq_getElem hentry)
    (·.mapInstructions (front ++ ·)) x
  have happend : (f.blocks[f.entry].mapInstructions (front ++ ·)).defs =
      defsOf front ++ f.blocks[f.entry].defs := List.filterMap_append
  rw [happend, List.count_append] at hmodify
  change (f.parameters ++ (f.blocks.modify f.entry _).flatMap Block.defs).count x =
    (f.parameters ++ f.blocks.flatMap Block.defs).count x + _
  rw [List.count_append, List.count_append]
  omega

/-- What is read: an operand of the code in front, or what was read before. -/
theorem reads_prepend {b : BlockId} {done : List Instruction} {o : Operand}
    (hentry : f.entry < f.blocks.length) (hphis : ∀ i ∈ front, i.op.isPhi = false)
    (h : (f.prepend front values).Reads b done o) :
    (b = f.entry ∧ ∃ i after, front = done ++ i :: after ∧ o ∈ i.op.operands) ∨
      ∃ old, f.Reads b old o ∧ defsOf old ⊆ defsOf done := by
  cases h with
  | @instruction _ block' _ after i _ hblock' hsplit hphi hmem =>
      rw [block?_prepend] at hblock'
      obtain ⟨block, hblock, rfl⟩ := Option.map_eq_some_iff.mp hblock'
      split at hsplit
      next hb =>
        rw [Block.instructions_mapInstructions] at hsplit
        rcases split_append hsplit with ⟨rest, hfront, _⟩ | ⟨rest, rfl, hold⟩
        · exact .inl ⟨hb, i, rest, hfront, hmem⟩
        · refine .inr ⟨rest, .instruction hblock hold hphi hmem, ?_⟩
          rw [defsOf_append]
          exact List.subset_append_right _ _
      next => exact .inr ⟨done, .instruction hblock hsplit hphi hmem, List.Subset.refl _⟩
  | @terminator _ block' _ hblock' hmem =>
      rw [block?_prepend] at hblock'
      obtain ⟨block, hblock, rfl⟩ := Option.map_eq_some_iff.mp hblock'
      split at hmem
      next hb =>
        refine .inr ⟨_, .terminator hblock hmem, ?_⟩
        rw [if_pos hb, Block.instructions_mapInstructions, defsOf_append]
        exact List.subset_append_right _ _
      next hb =>
        refine .inr ⟨_, .terminator hblock hmem, ?_⟩
        rw [if_neg hb]
        exact List.Subset.refl _
  | @phi b' _ block' i dest ty incoming _ hblock' hi hop hmem =>
      have hi' : i ∈ (f.prepend front values).body b' := by rwa [body_eq hblock']
      rcases mem_body_prepend front values hentry hi' with hi | hi
      · have := hphis i hi
        rw [hop] at this
        cases this
      · obtain ⟨block, hblock, hi⟩ := block?_of_mem_body hi
        exact .inr ⟨_, .phi hblock hi hop hmem, defs_body_prepend front values hentry b⟩

end

end Function

/-! ## Code that may stand in front -/

/-- Code that reads only what it defines, with constants that the module holds. -/
abbrev Module.Prepares (m : Module) (values values' : List ValueInfo) (front : List Instruction) :
    Prop :=
  Emitted (fun _ => False) m.Holds values values' front

section

variable {m : Module} {f : Function} {front : List Instruction} {values : List ValueInfo}

theorem Emitted.exists_computes {There : ValueId → Prop} {Kept : Constant → Prop}
    {values' : List ValueInfo} (h : Emitted There Kept values values' front) {i : Instruction}
    (hi : i ∈ front) : ∃ before, Computes There Kept values' before i := by
  obtain ⟨before, after, hsplit⟩ := List.append_of_mem hi
  exact ⟨before, h.computes before i after hsplit⟩

/-- Code that computes something has no phis. -/
theorem Emitted.not_phi {There : ValueId → Prop} {Kept : Constant → Prop}
    {values' : List ValueInfo} (h : Emitted There Kept values values' front) :
    ∀ i ∈ front, i.op.isPhi = false := fun _ hi => by
  obtain ⟨_, hcomputes⟩ := h.exists_computes hi
  exact hcomputes.not_phi

/-- The body stays well formed, since the new code reads only what it defines. -/
theorem Function.WellFormed.prepend (h : f.WellFormed)
    (hrecorded : ∀ x ∈ f.defined, x < f.values.length)
    (hentry : ∀ i ∈ f.body f.entry, i.op.isPhi = false)
    (hfront : m.Prepares f.values values front) : (f.prepend front values).WellFormed := by
  have hlt := h.entry_lt
  constructor
  case entry_lt =>
    rw [f.length_prepend]
    exact hlt
  case targets_lt =>
    intro a b hb
    rw [f.length_prepend]
    rw [f.successors_prepend] at hb
    exact h.targets_lt a b hb
  case entry_not_successor =>
    intro a
    rw [f.successors_prepend]
    exact h.entry_not_successor a
  case phis_first =>
    intro b before i after hsplit hphi
    by_cases hb : b = f.entry
    · -- there is no phi in the entry
      have hi : i ∈ (f.prepend front values).body f.entry := by simp [← hb, hsplit]
      have hnot := (f.mem_body_prepend front values hlt hi).elim (hfront.not_phi i) (hentry i)
      rw [hnot] at hphi
      cases hphi
    · rw [f.body_prepend_of_ne front values hb] at hsplit
      exact h.phis_first b before i after hsplit hphi
  case phi_sources =>
    intro b i hi dest ty incoming hop a
    rw [f.successors_prepend]
    rcases Function.mem_body_prepend front values hlt hi with hi | hi
    · have := hfront.not_phi i hi
      rw [hop] at this
      cases this
    · exact h.phi_sources b i hi dest ty incoming hop a
  case nodup =>
    apply nodup_of_count_between h.nodup hrecorded
    intro x
    rw [Function.count_prepend front values hlt, hfront.counts]
  case reads_defined =>
    intro b done x hreads
    rw [← List.count_pos_iff, Function.count_prepend front values hlt]
    rcases Function.reads_prepend front values hlt hfront.not_phi hreads with
      ⟨_, i, after, hsplit, hx⟩ | ⟨old, hold, _⟩
    · have hdone := ((hfront.computes done i after hsplit).reads x hx).resolve_left id
      have hmem : x ∈ defsOf front := by
        rw [hsplit, defsOf_append]
        exact List.mem_append_left _ hdone
      have := List.count_pos_iff.mpr hmem
      omega
    · have := List.count_pos_iff.mpr (h.reads_defined b old x hold)
      omega
  case reads_visible =>
    intro b done x hreads rest hwalk
    rcases Function.reads_prepend front values hlt hfront.not_phi hreads with
      ⟨_, i, after, hsplit, hx⟩ | ⟨old, hold, hdefs⟩
    · exact .inr (.inl (((hfront.computes done i after hsplit).reads x hx).resolve_left id))
    · rcases h.reads_visible b old x hold rest ((f.walk_prepend_iff front values).mp hwalk) with
        hparameter | hx | ⟨d, hd, hx⟩
      · exact .inl hparameter
      · exact .inr (.inl (hdefs hx))
      · exact .inr (.inr ⟨d, hd, f.defs_body_prepend front values hlt d hx⟩)

/-- The module admits the body with code in front of it. -/
theorem Module.Admits.prepend (h : m.Admits f)
    (hrecorded : ∀ x ∈ f.defined, x < f.values.length)
    (hentry : ∀ i ∈ f.body f.entry, i.op.isPhi = false)
    (hfront : m.Prepares f.values values front) : m.Admits (f.prepend front values) where
  form := h.form.prepend hrecorded hentry hfront
  operands c hc := by
    rcases f.mem_operands_prepend front values hc with ⟨i, hi, hc⟩ | hc
    · obtain ⟨_, hcomputes⟩ := hfront.exists_computes hi
      exact hcomputes.holds c hc
    · exact h.operands c hc
  pointers b i hi address haddress ty hty := by
    rw [Function.operandType?_eq] at hty
    rcases Function.mem_body_prepend front values h.form.entry_lt hi with hi | hi
    · obtain ⟨_, hcomputes⟩ := hfront.exists_computes hi
      exact Option.some.inj (hty.symm.trans (hcomputes.pointers address haddress))
    · obtain ⟨ty', hty'⟩ := h.exists_type hrecorded
        (Function.operands_subset_of_mem hi (Operation.mem_operands_of_address? haddress))
      have hsame : address.typeIn values = some ty' := Operand.typeIn_of_prefix hfront.grows hty'
      obtain rfl := Option.some.inj (hty.symm.trans hsame)
      refine h.pointers b i hi address haddress ty ?_
      rw [Function.operandType?_eq]
      exact hty'
  calls b i hi dest ty callee args hop := by
    rcases Function.mem_body_prepend front values h.form.entry_lt hi with hi | hi
    · obtain ⟨_, hcomputes⟩ := hfront.exists_computes hi
      have := hcomputes.not_call
      rw [hop] at this
      cases this
    · exact h.calls b i hi dest ty callee args hop

end

end Monolith

import Monolith.Proofs.Module.Arenas
import Monolith.Verify

/-! # Which check reports a defect

Each kind of defect is reported by one of the checks. So a defect that is reported by one of them
is not reported by the others, and it is known where to look for its cause.
-/

namespace Monolith

inductive Check where
  /-- The name tables and the designated entry. -/
  | naming
  /-- The flow of control and of values through a body. -/
  | flow
  | references
  | operations
  | initializers
  deriving DecidableEq

namespace Defect

def check : Defect → Check
  | .staleName .. | .duplicateName .. | .danglingEntry .. => .naming
  | .missingEntryBlock .. | .entryHasPredecessors .. | .invalidTarget .. | .misplacedPhi ..
  | .phiPredecessorMismatch .. | .undefinedValue .. | .multipleDefinitions ..
  | .useNotDominated .. => .flow
  | .erasedFunction .. | .erasedGlobal .. => .references
  | .poisonCallee .. | .arityMismatch .. | .nonPointerAddress .. => .operations
  | .initializerTypeMismatch .. => .initializers

theorem eq_of_mem_report {p : Prop} [Decidable p] {d e : Defect}
    (h : d ∈ if p then [] else [e]) : d = e := by
  split at h
  next => cases h
  next => exact List.mem_singleton.mp h

end Defect

theorem Operand.mem_filterMap_const? {c : Constant} {os : List Operand} :
    c ∈ os.filterMap Operand.const? ↔ .const c ∈ os := by
  rw [List.mem_filterMap]
  constructor
  · rintro ⟨o, ho, hc⟩
    cases o with
    | var x => cases hc
    | const e => exact Option.some.inj hc ▸ ho
  · exact fun h => ⟨_, h, rfl⟩

variable {m : Module} {f : Function} {b : BlockId} {block : Block} {d : Defect}

namespace Function

/-- A target that does not exist is reported with its block. -/
theorem exists_eq_of_mem_invalidTargets (h : d ∈ f.invalidTargets) :
    ∃ b target, d = .invalidTarget f.name b target := by
  obtain ⟨entry, _, h⟩ := List.mem_flatMap.mp h
  obtain ⟨target, _, rfl⟩ := List.mem_map.mp h
  exact ⟨entry.2, target, rfl⟩

theorem check_of_mem_invalidTargets (h : d ∈ f.invalidTargets) : d.check = .flow := by
  obtain ⟨b, target, rfl⟩ := exists_eq_of_mem_invalidTargets h
  rfl

theorem eq_of_mem_phiDefects (h : d ∈ f.phiDefects b block) :
    d = .misplacedPhi f.name b ∨ ∃ x, d = .phiPredecessorMismatch f.name b x := by
  obtain ⟨⟨i, index⟩, _, h⟩ := List.mem_flatMap.mp h
  dsimp only at h
  split at h
  next =>
    rcases List.mem_append.mp h with h | h
    · exact .inl (Defect.eq_of_mem_report h)
    · exact .inr ⟨_, Defect.eq_of_mem_report h⟩
  next => cases h

theorem check_of_mem_phiDefects (h : d ∈ f.phiDefects b block) : d.check = .flow := by
  rcases eq_of_mem_phiDefects h with rfl | ⟨x, rfl⟩
  · rfl
  · rfl

theorem eq_of_mem_useDefects {reaches : Definition → Bool} {x : ValueId}
    (h : d ∈ f.useDefects b reaches x) :
    d = .undefinedValue f.name x ∨ d = .useNotDominated f.name b x := by
  unfold useDefects at h
  split at h
  next => exact .inl (List.mem_singleton.mp h)
  next => exact .inr (Defect.eq_of_mem_report h)

theorem exists_eq_of_mem_blockUseDefects {tree : DominatorTree}
    (h : d ∈ f.blockUseDefects tree b block) :
    ∃ x, d = .undefinedValue f.name x ∨ d = .useNotDominated f.name b x := by
  rcases List.mem_append.mp h with h | h
  · obtain ⟨⟨i, index⟩, _, h⟩ := List.mem_flatMap.mp h
    dsimp only at h
    split at h
    next =>
      obtain ⟨⟨value, source⟩, _, h⟩ := List.mem_flatMap.mp h
      obtain ⟨x, _, h⟩ := List.mem_flatMap.mp h
      exact ⟨x, eq_of_mem_useDefects h⟩
    next =>
      obtain ⟨x, _, h⟩ := List.mem_flatMap.mp h
      exact ⟨x, eq_of_mem_useDefects h⟩
  · obtain ⟨x, _, h⟩ := List.mem_flatMap.mp h
    exact ⟨x, eq_of_mem_useDefects h⟩

theorem check_of_mem_blockUseDefects {tree : DominatorTree}
    (h : d ∈ f.blockUseDefects tree b block) : d.check = .flow := by
  obtain ⟨x, rfl | rfl⟩ := exists_eq_of_mem_blockUseDefects h
  · rfl
  · rfl

theorem check_of_mem_pointerDefects {address : Operand} (h : d ∈ f.pointerDefects b address) :
    d.check = .operations := by
  unfold pointerDefects at h
  split at h
  next =>
    rw [Defect.eq_of_mem_report h]
    rfl
  next => cases h

end Function

namespace Module

theorem check_of_mem_referenceDefects {site : Site} {c : Constant}
    (h : d ∈ m.referenceDefects site c) : d.check = .references := by
  obtain ⟨node, _, h⟩ := List.mem_filterMap.mp h
  split at h
  next =>
    split at h
    next => cases h
    next =>
      obtain rfl := Option.some.inj h
      rfl
  next =>
    split at h
    next => cases h
    next =>
      obtain rfl := Option.some.inj h
      rfl
  next => cases h

theorem check_of_mem_operationDefects {op : Operation} (h : d ∈ m.operationDefects f b op) :
    d.check = .operations := by
  cases op with
  | load | store | elementPtr => exact Function.check_of_mem_pointerDefects h
  | call dest ty callee args =>
      rw [operationDefects, callDefects] at h
      split at h
      next =>
        rw [List.mem_singleton.mp h]
        rfl
      next =>
        split at h
        next =>
          rw [Defect.eq_of_mem_report h]
          rfl
        next => cases h
  | _ => cases h

theorem check_of_mem_naming (h : d ∈ m.staleNames ++ m.duplicateNames ++ m.entryDefects) :
    d.check = .naming := by
  rcases List.mem_append.mp h with h | h
  · rcases List.mem_append.mp h with h | h
    · rw [staleNames, List.mem_mergeSort] at h
      rcases List.mem_append.mp h with h | h
      · obtain ⟨entry, _, rfl⟩ := List.mem_map.mp h
        rfl
      · obtain ⟨entry, _, rfl⟩ := List.mem_map.mp h
        rfl
    · rcases List.mem_append.mp h with h | h
      · obtain ⟨name, _, rfl⟩ := List.mem_map.mp h
        rfl
      · obtain ⟨name, _, rfl⟩ := List.mem_map.mp h
        rfl
  · unfold entryDefects at h
    split at h
    next =>
      rw [Defect.eq_of_mem_report h]
      rfl
    next => cases h

/-! ## Where a defect is reported -/

/-- References are checked in all operands of a block, operations in its instructions. -/
theorem mem_blockDefects_iff : d ∈ m.blockDefects f b block ↔
    (∃ c, .const c ∈ block.operands ∧ d ∈ m.referenceDefects (.block f.name b) c) ∨
      ∃ i ∈ block.instructions, d ∈ m.operationDefects f b i.op := by
  have hoperands : ∀ operands, d ∈ m.operandDefects (.block f.name b) operands ↔
      ∃ c, .const c ∈ operands ∧ d ∈ m.referenceDefects (.block f.name b) c := by
    intro operands
    simp only [operandDefects, List.mem_flatMap, Operand.mem_filterMap_const?]
  simp only [blockDefects, Block.operands, List.mem_append, List.mem_flatMap, hoperands]
  constructor
  · rintro (⟨i, hi, ⟨c, hc, h⟩ | h⟩ | ⟨c, hc, h⟩)
    · exact .inl ⟨c, .inl ⟨i, hi, hc⟩, h⟩
    · exact .inr ⟨i, hi, h⟩
    · exact .inl ⟨c, .inr hc, h⟩
  · rintro (⟨c, ⟨i, hi, hc⟩ | hc, h⟩ | ⟨i, hi, h⟩)
    · exact .inl ⟨i, hi, .inl ⟨c, hc, h⟩⟩
    · exact .inr ⟨c, hc, h⟩
    · exact .inl ⟨i, hi, .inr h⟩

/-- What is no defect of the flow is reported for a block. -/
theorem mem_bodyDefects_iff (hd : d.check ≠ .flow) : d ∈ m.bodyDefects f ↔
    ∃ b block, f.block? b = some block ∧ d ∈ m.blockDefects f b block := by
  simp only [bodyDefects, List.mem_append, List.mem_flatMap, List.mem_map]
  constructor
  · rintro ((((h | ⟨_, _, h⟩) | ⟨_, _, rfl⟩) | ⟨_, _, h⟩) | ⟨⟨block, b⟩, hblock, h⟩)
    · rw [Defect.eq_of_mem_report h] at hd
      exact absurd rfl hd
    · exact absurd (Function.check_of_mem_phiDefects h) hd
    · exact absurd rfl hd
    · exact absurd (Function.check_of_mem_blockUseDefects h) hd
    · exact ⟨b, block, List.mem_zipIdx_iff_getElem?.mp hblock, h⟩
  · rintro ⟨b, block, hblock, h⟩
    exact .inr ⟨(block, b), List.mem_zipIdx_iff_getElem?.mpr hblock, h⟩

/-- A defect that is not one of control flow is one of the body. -/
theorem mem_bodyDefects_of_mem_functionDefects (hd : d.check ≠ .flow)
    (h : d ∈ m.functionDefects f) : d ∈ m.bodyDefects f := by
  unfold functionDefects at h
  split at h
  next => cases h
  next =>
    split at h
    next =>
      rw [List.mem_singleton.mp h] at hd
      exact absurd rfl hd
    next =>
      split at h
      next => exact h
      next => exact absurd (Function.check_of_mem_invalidTargets h) hd

theorem mem_globalDefects_iff {g : Global} : d ∈ m.globalDefects g ↔
    ∃ c, g.initializer = some c ∧ (d ∈ m.referenceDefects (.initializer g.name) c ∨
      c.ty ≠ g.valueType ∧ d = .initializerTypeMismatch g.name g.valueType c.ty) := by
  unfold globalDefects
  cases g.initializer with
  | none => simp
  | some c => by_cases hty : c.ty = g.valueType <;> simp [hty]

/-- What is no defect of the naming is reported for a global or for a function. -/
theorem mem_defects_iff (hd : d.check ≠ .naming) : d ∈ m.defects ↔
    (∃ id g, m.global? id = some g ∧ d ∈ m.globalDefects g) ∨
      ∃ id f, m.function? id = some f ∧ d ∈ m.functionDefects f := by
  have hnaming : d ∉ m.staleNames ++ m.duplicateNames ++ m.entryDefects :=
    fun h => hd (check_of_mem_naming h)
  rw [defects, List.mem_append, List.mem_append, or_iff_right hnaming, List.mem_flatMap,
    List.mem_flatMap]
  constructor
  · rintro (⟨⟨id, g⟩, hg, h⟩ | ⟨⟨id, f⟩, hf, h⟩)
    · exact .inl ⟨id, g, Arena.mem_entries.mp hg, h⟩
    · exact .inr ⟨id, f, Arena.mem_entries.mp hf, h⟩
  · rintro (⟨id, g, hg, h⟩ | ⟨id, f, hf, h⟩)
    · exact .inl ⟨(id, g), Arena.mem_entries.mpr hg, h⟩
    · exact .inr ⟨(id, f), Arena.mem_entries.mpr hf, h⟩

/-! ## Repeated definitions -/

/-- Only the check for repeated definitions reports one, and it looks at the function alone. -/
theorem mem_repeats_of_mem_functionDefects {name : String} {x : ValueId}
    (h : .multipleDefinitions name x ∈ m.functionDefects f) :
    f.name = name ∧ x ∈ repeats (f.definitions.map Prod.fst) := by
  unfold functionDefects at h
  split at h
  next => cases h
  split at h
  next => cases List.mem_singleton.mp h
  split at h
  next =>
    simp only [bodyDefects, List.mem_append, List.mem_flatMap, List.mem_map] at h
    rcases h with (((h | ⟨_, _, h⟩) | ⟨y, hy, h⟩) | ⟨_, _, h⟩) | ⟨_, _, h⟩
    · cases Defect.eq_of_mem_report h
    · rcases Function.eq_of_mem_phiDefects h with h | ⟨_, h⟩ <;> cases h
    · obtain ⟨rfl, rfl⟩ := Defect.multipleDefinitions.inj h
      exact ⟨rfl, hy⟩
    · obtain ⟨_, h | h⟩ := Function.exists_eq_of_mem_blockUseDefects h <;> cases h
    · rcases mem_blockDefects_iff.mp h with ⟨c, _, h⟩ | ⟨i, _, h⟩
      · cases check_of_mem_referenceDefects h
      · cases check_of_mem_operationDefects h
  next =>
    obtain ⟨_, _, h⟩ := Function.exists_eq_of_mem_invalidTargets h
    cases h

/-- A repeated definition that is reported for a name is one of a function with that name. -/
theorem exists_repeats_of_mem_defects {name : String} {x : ValueId}
    (h : .multipleDefinitions name x ∈ m.defects) :
    ∃ id f, m.function? id = some f ∧ f.name = name ∧
      x ∈ repeats (f.definitions.map Prod.fst) := by
  have hnaming : (Defect.multipleDefinitions name x).check ≠ .naming := Check.noConfusion
  rcases (mem_defects_iff hnaming).mp h with ⟨_, g, _, h⟩ | ⟨id, f, hf, h⟩
  · obtain ⟨c, _, h | ⟨_, h⟩⟩ := mem_globalDefects_iff.mp h
    · cases check_of_mem_referenceDefects h
    · cases h
  · exact ⟨id, f, hf, mem_repeats_of_mem_functionDefects h⟩

end Module

end Monolith

import Monolith.Proofs.Globals.ExpandedOperands

/-! # Mentions that last

A function that a body or the initializer of a global mentions is still mentioned when the
global has moved into the body: no constant is dropped, it is only taken apart.
-/

namespace Monolith

def Function.mentions (f : Function) : List FunctionId := f.operands.flatMap Operand.functions

def Operand.mentionsFunction (id : FunctionId) (o : Operand) : Bool := o.functions.contains id

theorem Function.mem_mentions {f : Function} {id : FunctionId} :
    id ∈ f.mentions ↔ f.operands.any (·.mentionsFunction id) = true := by
  simp only [mentions, List.mem_flatMap, List.any_eq_true, Operand.mentionsFunction,
    List.contains_iff_mem]

/-! ## Initializers -/

namespace Constant

variable {tracked : GlobalId → Bool} {id : FunctionId}

mutual

/-- What is not left in an aggregate is taken out of it. -/
theorem functions_remainder : (c : Constant) → {path : List Nat} → id ∈ c.functions →
    id ∈ (c.remainder tracked).functions ∨ ∃ entry ∈ c.takenOut tracked path, id ∈ entry.2.functions
  | .aggregate ty elements, path, hid => functions_remainders elements hid
  | .elementPtr source base indices, path, hid =>
      .inr ⟨(path, .elementPtr source base indices), List.mem_singleton_self _, hid⟩
  | .cast op value ty, path, hid => .inr ⟨(path, .cast op value ty), List.mem_singleton_self _, hid⟩
  | .function _, path, hid => .inl hid
  | .int .., path, hid | .null, path, hid | .undef _, path, hid | .poison _, path, hid
  | .bytes _, path, hid | .global _, path, hid => by cases hid

theorem functions_remainders : (elements : List Constant) → {path : List Nat} → {index : Nat} →
    id ∈ (nodesAll elements).filterMap function? →
    id ∈ (nodesAll (remainders tracked elements)).filterMap function? ∨
      ∃ entry ∈ takenOutFrom tracked path index elements, id ∈ entry.2.functions
  | [], path, index, hid => by cases hid
  | c :: elements, path, index, hid => by
      rw [nodesAll, List.filterMap_append, List.mem_append] at hid
      rw [remainders, nodesAll, takenOutFrom, List.filterMap_append, List.mem_append]
      rcases hid with hid | hid
      · rcases functions_remainder c hid with hleft | ⟨entry, hentry, hid⟩
        · exact .inl (.inl hleft)
        · exact .inr ⟨entry, List.mem_append_left _ hentry, hid⟩
      · rcases functions_remainders elements hid with hleft | ⟨entry, hentry, hid⟩
        · exact .inl (.inr hleft)
        · exact .inr ⟨entry, List.mem_append_right _ hentry, hid⟩

end

theorem functions_bulk {c : Constant} (hid : id ∈ c.functions) :
    id ∈ (c.bulk tracked).functions ∨ ∃ entry ∈ c.separate tracked, id ∈ entry.2.functions := by
  unfold bulk separate
  split
  next => exact functions_remainder c hid
  next => exact .inl hid

end Constant

namespace Localized

variable {scope : Localized} {id : FunctionId}

/-- What an initializer mentions is mentioned by what is put in front of the function. -/
theorem any_front_mentions (first : ValueId) {entry : GlobalId × Global}
    (hentry : entry ∈ scope.globals) {c : Constant} (hc : entry.2.initializer = some c)
    (hid : id ∈ c.functions) :
    anyOperand (Operand.mentionsFunction id) (scope.allocas first ++ scope.stores first) =
      true := by
  rw [any_front (fun _ => rfl) (fun _ => rfl), List.any_eq_true]
  refine ⟨entry, hentry, (Option.any_eq_true _ _).mpr ⟨c, hc, ?_⟩⟩
  rw [Bool.or_eq_true, List.any_eq_true]
  rcases c.functions_bulk hid with hid | ⟨element, helement, hid⟩
  · exact .inl (List.contains_iff_mem.mpr hid)
  · exact .inr ⟨element, helement, List.contains_iff_mem.mpr hid⟩

/-! ## Functions that get globals -/

theorem carries_functions (scope : Localized) (id : FunctionId) :
    scope.Carries (Operand.mentionsFunction id) (Operand.mentionsFunction id) :=
  carries_of_kept (fun _ => ⟨rfl, rfl⟩) (fun _ => rfl) (fun _ _ _ => rfl) (fun _ _ _ => rfl)
    fun _ _ => rfl

theorem functions_useSlot (slots : List (GlobalId × ValueId)) (o : Operand) :
    (useSlot slots o).functions = o.functions :=
  view_useSlot (fun _ _ => rfl) o

/-- What the function or an initializer of its globals mentions is mentioned by the result. -/
theorem mem_mentions_localizeInto {f g : Function} (h : scope.localizeInto f = .ok g)
    (hid : id ∈ f.mentions ∨ ∃ entry ∈ scope.globals, ∃ c, entry.2.initializer = some c ∧
      id ∈ c.functions) : id ∈ g.mentions := by
  have hentry := entry_lt_of_localizeInto h
  obtain ⟨expanded, hexpanded, rfl⟩ := expandFunction_of_localizeInto h
  have hmentions : id ∈ expanded.mentions := by
    rw [Function.mem_mentions, expandFunction_carried (scope.carries_functions id) hexpanded,
      prepared, Function.any_operands_prepend _ _ _ _ hentry, Bool.or_eq_true]
    rcases hid with hid | ⟨entry, hentry, c, hc, hid⟩
    · exact .inr (Function.mem_mentions.mp hid)
    · exact .inl (any_front_mentions _ hentry hc hid)
  rw [Function.mentions, Function.operands_mapOperands, List.flatMap_map]
  simp only [functions_useSlot]
  exact hmentions

end Localized

end Monolith

import Mathlib.Data.List.Nodup
import Mathlib.Tactic.Common
import Monolith.Arena

/-! # What is live in an arena

The entries of an arena are known from what is found under each id. Changing an
entity keeps the others, and erasing takes out one entry.
-/

namespace Monolith.Arena

variable {α β : Type} {arena : Arena α} {id other : Nat} {f : α → α}

theorem get?_eq_some_iff {a : α} : arena.get? id = some a ↔ arena[id]? = some (some a) := by
  rw [get?]
  cases arena[id]? <;> simp

theorem forall_mem_iff {p : α → Prop} :
    (∀ slot ∈ arena, ∀ a ∈ slot, p a) ↔ ∀ id a, arena.get? id = some a → p a := by
  constructor
  · intro h id a ha
    exact h (some a) (List.mem_of_getElem? (get?_eq_some_iff.mp ha)) a rfl
  · rintro h slot hslot a rfl
    obtain ⟨id, hid⟩ := List.getElem?_of_mem hslot
    exact h id a (get?_eq_some_iff.mpr hid)

/-- An entity is listed under its id. -/
theorem mem_entries {a : α} : (id, a) ∈ arena.entries ↔ arena.get? id = some a := by
  simp only [entries, List.mem_filterMap, Prod.exists, List.mem_zipIdx_iff_getElem?,
    Option.map_eq_some_iff, Prod.mk.injEq, get?_eq_some_iff]
  constructor
  · rintro ⟨_, _, hget, _, rfl, rfl, rfl⟩
    exact hget
  · exact fun hget => ⟨some a, id, hget, a, rfl, rfl, rfl⟩

theorem get?_update :
    (arena.update id f).get? other =
      if id = other then (arena.get? other).map f else arena.get? other := by
  rw [get?, get?, update, List.getElem?_modify]
  split
  next => cases arena[other]? <;> simp
  next => cases arena[other]? <;> simp

/-- A change of one entity that keeps a property of it keeps it for all. -/
theorem mapLive_update {g : α → β} (h : ∀ a, arena.get? id = some a → g (f a) = g a) :
    (arena.update id f).mapLive g = arena.mapLive g := by
  apply List.ext_getElem?
  intro other
  simp only [mapLive, update, List.getElem?_map, List.getElem?_modify]
  split
  next heq =>
    subst heq
    cases hslot : arena[id]? with
    | none => rfl
    | some slot =>
        cases slot with
        | none => rfl
        | some a => simp [h a (get?_eq_some_iff.mpr hslot)]
  next => cases arena[other]? <;> rfl

theorem mapLive_erase (arena : Arena α) (id : Nat) (f : α → β) :
    (arena.erase id).mapLive f = (arena.mapLive f).erase id := List.map_set

theorem get?_erase :
    (arena.erase id).get? other = if id = other then none else arena.get? other := by
  rw [get?, get?, erase, List.getElem?_set]
  split
  next => split <;> rfl
  next => rfl

/-- Only what is erased is gone. -/
theorem get?_foldl_erase {erased : List Nat} :
    (erased.foldl erase arena).get? other = if other ∈ erased then none else arena.get? other := by
  induction erased generalizing arena with
  | nil => rfl
  | cons id erased ih =>
      rw [List.foldl_cons, ih, get?_erase]
      by_cases heq : other = id
      · simp [heq]
      · simp [heq, Ne.symm heq]

theorem get?_mapLive {f : α → β} : (arena.mapLive f).get? id = (arena.get? id).map f := by
  rw [get?, get?, mapLive, List.getElem?_map]
  cases arena[id]? <;> simp

theorem mapLive_mapLive {γ : Type} (arena : Arena α) (f : α → β) (g : β → γ) :
    (arena.mapLive f).mapLive g = arena.mapLive fun a => g (f a) := by
  rw [mapLive, mapLive, mapLive, List.map_map]
  refine List.map_congr_left fun slot _ => ?_
  exact Option.map_map g f slot

theorem mapLive_eq_self (h : ∀ id a, arena.get? id = some a → f a = a) :
    arena.mapLive f = arena := by
  apply List.ext_getElem?
  intro id
  rw [mapLive, List.getElem?_map]
  cases hslot : arena[id]? with
  | none => rfl
  | some slot =>
      cases slot with
      | none => rfl
      | some a => simp [h id a (get?_eq_some_iff.mpr hslot)]

theorem mem_ids : id ∈ arena.ids ↔ (arena.get? id).isSome = true := by
  simp only [ids, List.mem_map, Prod.exists, mem_entries, Option.isSome_iff_exists]
  constructor
  · rintro ⟨_, a, ha, rfl⟩
    exact ⟨a, ha⟩
  · exact fun ⟨a, ha⟩ => ⟨id, a, ha, rfl⟩

section

variable (arena : Arena α)

/-- The entries by what is found under each id. -/
theorem entries_eq :
    arena.entries = (List.range arena.length).filterMap fun id => (arena.get? id).map (id, ·) := by
  have hslots : arena.zipIdx = (List.range arena.length).map fun id => (arena.get? id, id) := by
    apply List.ext_getElem (by simp)
    intro id hid _
    have hlt : id < arena.length := by simpa using hid
    simp [get?, List.getElem?_eq_getElem hlt]
  rw [entries, hslots, List.filterMap_map]
  rfl

theorem ids_nodup : arena.ids.Nodup := by
  rw [ids, entries_eq, List.map_filterMap]
  refine List.nodup_range.filterMap ?_
  intro a b c ha hb
  obtain ⟨_, _, rfl⟩ : ∃ x, arena.get? a = some x ∧ a = c := by simpa using ha
  obtain ⟨_, _, rfl⟩ : ∃ x, arena.get? b = some x ∧ b = a := by simpa using hb
  rfl

/-- Ids come by size. -/
theorem ids_pairwise_lt : arena.ids.Pairwise (· < ·) := by
  have hids : arena.ids = (List.range arena.length).filter fun id => (arena.get? id).isSome := by
    rw [ids, entries_eq, List.map_filterMap, ← List.filterMap_eq_filter]
    refine congrArg (List.filterMap · _) (funext fun id => ?_)
    cases hid : arena.get? id <;> simp [hid, Option.guard]
  rw [hids]
  exact List.pairwise_lt_range.sublist List.filter_sublist

/-- Changing all entities keeps their ids. -/
theorem entries_mapLive (f : α → β) :
    (arena.mapLive f).entries = arena.entries.map fun entry => (entry.1, f entry.2) := by
  have hlength : (arena.mapLive f).length = arena.length := List.length_map _
  rw [entries_eq, entries_eq, hlength, List.map_filterMap]
  refine congrArg (List.filterMap · _) (funext fun id => ?_)
  rw [get?_mapLive]
  cases arena.get? id <;> rfl

theorem entries_erase (id : Nat) :
    (arena.erase id).entries = arena.entries.filter fun entry => entry.1 ≠ id := by
  have hlength : (arena.erase id).length = arena.length := List.length_set
  rw [entries_eq, entries_eq, hlength, List.filter_filterMap]
  refine congrArg (List.filterMap · _) (funext fun other => ?_)
  rw [get?_erase]
  by_cases hid : id = other
  · cases arena.get? other <;> simp [hid, Option.filter]
  · cases arena.get? other <;> simp [hid, Ne.symm hid, Option.filter]

/-- Erasing several entities takes out their entries. -/
theorem entries_foldl_erase (erased : List Nat) :
    (erased.foldl erase arena).entries =
      arena.entries.filter fun entry => entry.1 ∉ erased := by
  induction erased generalizing arena with
  | nil => simp
  | cons id erased ih =>
      rw [List.foldl_cons, ih, entries_erase, List.filter_filter]
      refine congrArg (List.filter · _) (funext fun entry => ?_)
      by_cases h : entry.1 = id <;> simp [h]

theorem ids_foldl_erase (erased : List Nat) :
    (erased.foldl erase arena).ids = arena.ids.filter (· ∉ erased) := by
  rw [ids, ids, entries_foldl_erase, List.filter_map]
  rfl

end

/-- Each entity that is erased counts once. -/
theorem liveCount_foldl_erase {erased : List Nat} (hnodup : erased.Nodup)
    (hlive : ∀ id ∈ erased, id ∈ arena.ids) :
    (erased.foldl erase arena).liveCount + erased.length = arena.liveCount := by
  have hperm : (arena.ids.filter (· ∈ erased)).Perm erased := by
    refine (List.perm_ext_iff_of_nodup (arena.ids_nodup.filter _) hnodup).mpr fun id => ?_
    simpa using hlive id
  have hcount : ∀ arena : Arena α, arena.liveCount = arena.ids.length := fun arena => by
    rw [liveCount, ids, List.length_map]
  have hsplit := List.length_eq_length_filter_add (l := arena.ids) (· ∈ erased)
  rw [hcount, hcount, ids_foldl_erase, hsplit, hperm.length_eq, Nat.add_comm]
  simp

theorem erase_of_get?_eq_none (h : arena.get? id = none) : arena.erase id = arena := by
  apply List.ext_getElem?
  intro other
  rw [erase, List.getElem?_set]
  split
  next heq =>
    subst heq
    split
    next hlt =>
      rw [get?, List.getElem?_eq_getElem hlt] at h
      rw [List.getElem?_eq_getElem hlt]
      exact congrArg some h.symm
    next hlt => exact (List.getElem?_eq_none (Nat.not_lt.mp hlt)).symm
  next => rfl

end Monolith.Arena

import Mathlib.Data.List.Forall2
import Mathlib.Data.List.Nodup

/-! # Lists

Facts about lists that know nothing of modules. -/

namespace Monolith

/-- An entry of two lists that are appended stands in the first or in the second. -/
theorem split_append {α : Type} {front back before after : List α} {a : α}
    (h : front ++ back = before ++ a :: after) :
    (∃ rest, front = before ++ a :: rest ∧ after = rest ++ back) ∨
      ∃ rest, before = front ++ rest ∧ back = rest ++ a :: after := by
  rcases List.append_eq_append_iff.mp h with ⟨rest, rfl, hback⟩ | ⟨rest, rfl, hrest⟩
  · exact .inr ⟨rest, rfl, hback⟩
  · cases rest with
    | nil => exact .inr ⟨[], by simp, by simpa using hrest.symm⟩
    | cons b rest =>
        obtain ⟨rfl, rfl⟩ := List.cons.inj hrest
        exact .inl ⟨rest, rfl, rfl⟩

/-- What no step changes stays the same along all of them. -/
theorem foldl_view {σ α β : Type} {view : σ → β} {step : σ → α → σ}
    (h : ∀ s a, view (step s a) = view s) (entries : List α) (s : σ) :
    view (entries.foldl step s) = view s :=
  List.foldlRecOn (motive := fun t => view t = view s) entries step rfl fun t ht a _ =>
    (h t a).trans ht

theorem eraseDups_nodup {α : Type} [BEq α] [LawfulBEq α] (entries : List α) :
    entries.eraseDups.Nodup := by
  induction hlength : entries.length using Nat.strongRecOn generalizing entries with
  | ind length ih =>
      cases entries with
      | nil => exact List.nodup_nil
      | cons a entries =>
          rw [List.eraseDups_cons, List.nodup_cons, List.mem_eraseDups]
          refine ⟨by simp, ih _ ?_ _ rfl⟩
          rw [← hlength]
          exact Nat.lt_succ_of_le (List.length_filter_le _ _)

/-- With distinct keys, looking up finds every entry. -/
theorem lookup_eq_some_iff_mem {α : Type} {entries : List (Nat × α)}
    (hnodup : (entries.map Prod.fst).Nodup) {k : Nat} {v : α} :
    entries.lookup k = some v ↔ (k, v) ∈ entries := by
  constructor
  · intro h
    obtain ⟨front, rest, rfl, _⟩ := List.lookup_eq_some_iff.mp h
    simp
  · intro h
    obtain ⟨w, hw⟩ := Option.isSome_iff_exists.mp
      (List.lookup_isSome_iff.mpr ⟨(k, v), h, beq_self_eq_true k⟩)
    obtain ⟨front, rest, heq, _⟩ := List.lookup_eq_some_iff.mp hw
    have hmem : (k, w) ∈ entries := by simp [heq]
    have := List.inj_on_of_nodup_map hnodup h hmem rfl
    rw [hw, (Prod.mk.inj this).2]

theorem modify_append_cons {α : Type} (front : List α) (a : α) (rest : List α) (f : α → α) :
    (front ++ a :: rest).modify front.length f = front ++ f a :: rest := by
  induction front with
  | nil => rfl
  | cons b front ih => exact congrArg (b :: ·) ih

theorem exists_forall₂_right {α β : Type} {R : α → β → Prop} {as : List α} {bs : List β}
    (h : List.Forall₂ R as bs) {b : β} (hb : b ∈ bs) : ∃ a ∈ as, R a b := by
  induction h with
  | nil => cases hb
  | cons hR _ ih =>
      rcases List.mem_cons.mp hb with rfl | hb
      · exact ⟨_, List.mem_cons_self, hR⟩
      · obtain ⟨a, ha, hRa⟩ := ih hb
        exact ⟨a, List.mem_cons_of_mem _ ha, hRa⟩

end Monolith

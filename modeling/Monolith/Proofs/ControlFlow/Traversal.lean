import Mathlib.Data.List.Perm.Subperm
import Monolith.Proofs.ControlFlow.Walk

/-! # Recursive traversal

A visit of a block enters it, visits its successors in order, and is then done
with the block. It finishes all blocks that are reached and not visited, each
once, and lists each behind one of its predecessors.
-/

namespace Monolith.Function

variable {f : Function} {t : Traversal} {roots : List BlockId}

namespace Traversal

/-- The visited blocks exist, and none is listed twice. -/
structure Valid (f : Function) (t : Traversal) : Prop where
  nodup : t.visited.Nodup
  hasBlock : ∀ b ∈ t.visited, b < f.blocks.length

theorem Valid.insert (ht : t.Valid f) {b : BlockId} (hb : b < f.blocks.length)
    (hnew : b ∉ t.visited) : Traversal.Valid f { t with visited := b :: t.visited } where
  nodup := List.nodup_cons.mpr ⟨hnew, ht.nodup⟩
  hasBlock := by
    intro c hc
    rcases List.mem_cons.mp hc with rfl | hc
    · exact hb
    · exact ht.hasBlock c hc

theorem Valid.length_le {f : Function} {t : Traversal} (ht : t.Valid f) :
    t.visited.length ≤ f.blocks.length := by
  have hsub : t.visited ⊆ List.range f.blocks.length := by
    intro b hb
    exact List.mem_range.mpr (ht.hasBlock b hb)
  simpa using (ht.nodup.subperm hsub).length_le

/-- The second traversal goes on from the first: `new` are the blocks it has
finished since, and control leads from them only to blocks that are visited. -/
structure Extends (f : Function) (t t' : Traversal) (new : List BlockId) : Prop where
  order : t'.order = new ++ t.order
  visited : ∀ b, b ∈ t'.visited ↔ b ∈ new ∨ b ∈ t.visited
  nodup : new.Nodup
  fresh : ∀ b ∈ new, b ∉ t.visited
  closed : ∀ a ∈ new, ∀ b, f.Edge a b → b ∈ t'.visited

/-- Every block of the list is one of `roots` or stands behind a predecessor. -/
def Rooted (f : Function) (roots blocks : List BlockId) : Prop :=
  ∀ front b rest, blocks = front ++ b :: rest → b ∈ roots ∨ ∃ a ∈ front, f.Edge a b

theorem Rooted.cons {f : Function} {a : BlockId} {blocks : List BlockId}
    (h : Rooted f (f.existingSuccessors a) blocks) : Rooted f [a] (a :: blocks) := by
  intro front b rest hsplit
  cases front with
  | nil =>
      obtain ⟨rfl, _⟩ := List.cons.inj hsplit
      exact Or.inl List.mem_cons_self
  | cons c front =>
      obtain ⟨rfl, htail⟩ := List.cons.inj hsplit
      rcases h front b rest htail with hroot | ⟨d, hd, hedge⟩
      · exact Or.inr ⟨a, List.mem_cons_self, hroot⟩
      · exact Or.inr ⟨d, List.mem_cons_of_mem _ hd, hedge⟩

theorem Rooted.append {a : BlockId} {first second : List BlockId} (hfirst : Rooted f [a] first)
    (hsecond : Rooted f roots second) : Rooted f (a :: roots) (second ++ first) := by
  intro front b rest hsplit
  rcases List.append_eq_append_iff.mp hsplit with ⟨front', rfl, hrest⟩ | ⟨rest', rfl, hrest⟩
  · rcases hfirst front' b rest hrest with hroot | ⟨c, hc, hedge⟩
    · rw [List.mem_singleton.mp hroot]
      exact Or.inl List.mem_cons_self
    · exact Or.inr ⟨c, List.mem_append_right _ hc, hedge⟩
  · cases rest' with
    | nil =>
        rw [List.append_nil] at hsecond
        rcases hfirst [] b rest hrest.symm with hroot | ⟨c, hc, _⟩
        · rw [List.mem_singleton.mp hroot]
          exact Or.inl List.mem_cons_self
        · simp at hc
    | cons c rest' =>
        obtain ⟨rfl, _⟩ := List.cons.inj hrest
        rcases hsecond front b rest' rfl with hroot | hedge
        · exact Or.inl (List.mem_cons_of_mem _ hroot)
        · exact Or.inr hedge

end Traversal

open Traversal

mutual

/-- Visiting a block, without a bound on the depth. -/
inductive Visits (f : Function) : Traversal → BlockId → Traversal → Prop where
  | seen {t : Traversal} {id : BlockId} (hseen : id ∈ t.visited) : Visits f t id t
  | enter {t inner : Traversal} {id : BlockId} (hnew : id ∉ t.visited)
      (hinner : VisitsAll f { t with visited := id :: t.visited } (f.existingSuccessors id) inner) :
      Visits f t id { inner with order := id :: inner.order }

inductive VisitsAll (f : Function) : Traversal → List BlockId → Traversal → Prop where
  | nil {t : Traversal} : VisitsAll f t [] t
  | cons {t t' t'' : Traversal} {id : BlockId} {ids : List BlockId} (hfirst : Visits f t id t')
      (hrest : VisitsAll f t' ids t'') : VisitsAll f t (id :: ids) t''

end

/-- What visiting gives: the traversal goes on, from the given roots, and has
visited them. -/
structure Visited (f : Function) (roots : List BlockId) (t t' : Traversal) : Prop where
  valid : t'.Valid f
  roots_mem : ∀ b ∈ roots, b ∈ t'.visited
  grows : ∃ new, Extends f t t' new ∧ Rooted f roots new

/-- Visiting one block and then others visits all of them. -/
theorem Visited.trans {a : BlockId} {t' t'' : Traversal} (hfirst : Visited f [a] t t')
    (hsecond : Visited f roots t' t'') : Visited f (a :: roots) t t'' := by
  obtain ⟨first, hext, hroot⟩ := hfirst.grows
  obtain ⟨second, hext', hroot'⟩ := hsecond.grows
  have hkept : ∀ b ∈ t'.visited, b ∈ t''.visited := fun b hb => (hext'.visited b).mpr (.inr hb)
  refine ⟨hsecond.valid, ?_, second ++ first, ?_, hroot.append hroot'⟩
  · intro b hb
    rcases List.mem_cons.mp hb with rfl | hb
    · exact hkept b (hfirst.roots_mem b List.mem_cons_self)
    · exact hsecond.roots_mem b hb
  · constructor
    · rw [hext'.order, hext.order, List.append_assoc]
    · intro b
      rw [hext'.visited, hext.visited, List.mem_append, or_assoc]
    · refine List.nodup_append.mpr ⟨hext'.nodup, hext.nodup, ?_⟩
      rintro b hb c hc rfl
      exact hext'.fresh b hb ((hext.visited b).mpr (.inl hc))
    · intro b hb hmem
      rcases List.mem_append.mp hb with hb | hb
      · exact hext'.fresh b hb ((hext.visited b).mpr (.inr hmem))
      · exact hext.fresh b hb hmem
    · intro b hb c hedge
      rcases List.mem_append.mp hb with hb | hb
      · exact hext'.closed b hb c hedge
      · exact hkept c (hext.closed b hb c hedge)

/-- Nothing is left to do for roots that are visited. -/
theorem visited_refl (ht : t.Valid f) (hroots : ∀ b ∈ roots, b ∈ t.visited) :
    Visited f roots t t where
  valid := ht
  roots_mem := hroots
  grows := by
    refine ⟨[], ⟨rfl, by simp, List.nodup_nil, by simp, by simp⟩, ?_⟩
    intro front b rest hsplit
    simp at hsplit

theorem Visited.enter {inner : Traversal} {id : BlockId} (hnew : id ∉ t.visited)
    (h : Visited f (f.existingSuccessors id) { t with visited := id :: t.visited } inner) :
    Visited f [id] t { inner with order := id :: inner.order } := by
  obtain ⟨new, hext, hroot⟩ := h.grows
  have hmem : ∀ b, b ∈ inner.visited ↔ b ∈ id :: new ∨ b ∈ t.visited := by
    intro b
    rw [hext.visited, List.mem_cons, List.mem_cons]
    tauto
  refine ⟨⟨h.valid.nodup, h.valid.hasBlock⟩, ?_, id :: new, ?_, hroot.cons⟩
  · intro b hb
    rw [List.mem_singleton.mp hb]
    exact (hmem id).mpr (.inl List.mem_cons_self)
  · constructor
    · simp [hext.order]
    · exact hmem
    · refine List.nodup_cons.mpr ⟨?_, hext.nodup⟩
      intro hid
      exact hext.fresh id hid List.mem_cons_self
    · intro b hb hbt
      rcases List.mem_cons.mp hb with rfl | hb
      · exact hnew hbt
      · exact hext.fresh b hb (List.mem_cons_of_mem _ hbt)
    · intro b hb c hedge
      rcases List.mem_cons.mp hb with rfl | hb
      · exact h.roots_mem c hedge
      · exact hext.closed b hb c hedge

mutual

/-- A visit finishes all that is reached and not visited. -/
theorem Visits.visited {f : Function} {t t' : Traversal} {id : BlockId} :
    Visits f t id t' → t.Valid f → id < f.blocks.length → Visited f [id] t t'
  | .seen hseen, ht, _ => visited_refl ht (by simpa using hseen)
  | .enter hnew hinner, ht, hid =>
      .enter hnew (hinner.visited (ht.insert hid hnew) fun _ hb => (edge_iff.mp hb).2)

/-- Visiting blocks visits them and all that is reached from them. -/
theorem VisitsAll.visited {f : Function} {t t' : Traversal} {ids : List BlockId} :
    VisitsAll f t ids t' → t.Valid f → (∀ b ∈ ids, b < f.blocks.length) → Visited f ids t t'
  | .nil, ht, _ => visited_refl ht (by simp)
  | .cons hfirst hrest, ht, hids =>
      have hvisited := hfirst.visited ht (hids _ List.mem_cons_self)
      hvisited.trans (hrest.visited hvisited.valid fun b hb => hids b (List.mem_cons_of_mem _ hb))

end

theorem Visited.length_le {f : Function} {roots : List BlockId} {t t' : Traversal}
    (ht : t.Valid f) (h : Visited f roots t t') : t.visited.length ≤ t'.visited.length := by
  obtain ⟨new, hext, _⟩ := h.grows
  exact (ht.nodup.subperm fun c hc => (hext.visited c).mpr (.inr hc)).length_le

/-- Visits a block and, through its successors in order, all that is reached from it and has
not been visited. Each level of the recursion visits a block, so the number of blocks bounds the
depth. -/
def visit (f : Function) : Nat → Traversal → BlockId → Traversal
  | 0, traversal, _ => traversal
  | depth + 1, traversal, id =>
      if traversal.visited.contains id then traversal
      else
        let inner := (f.existingSuccessors id).foldl (f.visit depth)
          { traversal with visited := id :: traversal.visited }
        { inner with order := id :: inner.order }

/-- A bound on the depth does no harm if it exceeds the number of blocks that are not visited. -/
theorem visits_visit {depth : Nat} {id : BlockId} (ht : t.Valid f) (hid : id < f.blocks.length)
    (hdepth : f.blocks.length < depth + t.visited.length) : Visits f t id (f.visit depth t id) := by
  induction depth generalizing t id with
  | zero =>
      have := ht.length_le
      omega
  | succ depth ih =>
      -- the successors are visited one by one, each with the depth that is left
      have hall : ∀ (ids : List BlockId) (t : Traversal), t.Valid f →
          (∀ b ∈ ids, b < f.blocks.length) → f.blocks.length < depth + t.visited.length →
          VisitsAll f t ids (ids.foldl (f.visit depth) t) := by
        intro ids
        induction ids with
        | nil => exact fun t _ _ _ => .nil
        | cons b ids ihids =>
            intro t ht hids hdepth
            have hfirst := ih ht (hids b List.mem_cons_self) hdepth
            have hvisited := hfirst.visited ht (hids b List.mem_cons_self)
            have hlength := hvisited.length_le ht
            refine .cons hfirst (ihids _ hvisited.valid ?_ (by omega))
            exact fun c hc => hids c (List.mem_cons_of_mem _ hc)
      unfold visit
      split
      next hseen => exact .seen (List.contains_iff_mem.mp hseen)
      next hseen =>
        have hnew : id ∉ t.visited := fun h => hseen (List.contains_iff_mem.mpr h)
        refine .enter hnew (hall _ _ (ht.insert hid hnew) (fun b hb => (edge_iff.mp hb).2) ?_)
        simp only [List.length_cons]
        omega

mutual

/-- What a visit gives is determined. -/
theorem Visits.unique {f : Function} {t t' t'' : Traversal} {id : BlockId} :
    Visits f t id t' → Visits f t id t'' → t' = t''
  | .seen _, .seen _ => rfl
  | .seen hseen, .enter hnew _ => absurd hseen hnew
  | .enter hnew _, .seen hseen => absurd hseen hnew
  | .enter _ hinner, .enter _ hinner' => by rw [hinner.unique hinner']

theorem VisitsAll.unique {f : Function} {t t' t'' : Traversal} {ids : List BlockId} :
    VisitsAll f t ids t' → VisitsAll f t ids t'' → t' = t''
  | .nil, .nil => rfl
  | .cons hfirst hrest, .cons hfirst' hrest' => by
      obtain rfl := hfirst.unique hfirst'
      exact hrest.unique hrest'

end

end Monolith.Function

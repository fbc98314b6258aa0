import Mathlib.Logic.Relation
import Monolith.Proofs.ControlFlow.ReversePostorder

/-! # Edges that go back

While a block is being visited, the blocks that have been entered and not finished are those on
the way to it, so control leads from them to it. An edge therefore leads to a block that is
finished earlier, and so listed later, or back to a block from which its start is reached. Where
there are no cycles, all edges lead to blocks that are listed later.
-/

namespace Monolith.Function

open Traversal

abbrev Reaches (f : Function) : BlockId → BlockId → Prop := Relation.ReflTransGen f.Edge

/-! ## The blocks that are being visited -/

/-- Every edge leads to a block that is listed behind its start, or back to a block from which
its start is reached. -/
def Retreats (f : Function) (order : List BlockId) : Prop :=
  ∀ front a rest, order = front ++ a :: rest → ∀ b, f.Edge a b → b ∈ rest ∨ f.Reaches b a

theorem Retreats.cons {f : Function} {a : BlockId} {order : List BlockId} (h : f.Retreats order)
    (ha : ∀ b, f.Edge a b → b ∈ order ∨ f.Reaches b a) : f.Retreats (a :: order) := by
  intro front c rest hsplit
  cases front with
  | nil =>
      obtain ⟨rfl, rfl⟩ := List.cons.inj hsplit
      exact ha
  | cons d front => exact h front c rest (List.cons.inj hsplit).2

/-- The blocks that are not finished lead to the given one. -/
def UnfinishedLead (f : Function) (t : Traversal) (id : BlockId) : Prop :=
  ∀ b ∈ t.visited, b ∈ t.order ∨ f.Reaches b id

/-- What a visit enters it also finishes. -/
theorem UnfinishedLead.visited {f : Function} {roots : List BlockId} {t t' : Traversal}
    {id : BlockId} (h : f.UnfinishedLead t id) (hvisited : Visited f roots t t') :
    f.UnfinishedLead t' id := by
  intro b hb
  obtain ⟨new, hext, _⟩ := hvisited.grows
  rw [hext.order, List.mem_append]
  rcases (hext.visited b).mp hb with hnew | hold
  · exact .inl (.inl hnew)
  · exact (h b hold).imp_left .inr

theorem UnfinishedLead.enter {f : Function} {t : Traversal} {id next : BlockId}
    (h : f.UnfinishedLead t id) (hedge : f.Edge id next) :
    f.UnfinishedLead { t with visited := id :: t.visited } next := by
  intro b hb
  rcases List.mem_cons.mp hb with rfl | hb
  · exact .inr (.single hedge)
  · exact (h b hb).imp_right fun hreaches => hreaches.tail hedge

mutual

/-- A visit from which nothing unfinished is cut off lists no other edges that go back than
those to blocks from which their start is reached. -/
theorem Visits.retreats {f : Function} {t t' : Traversal} {id : BlockId} :
    Visits f t id t' → t.Valid f → id < f.blocks.length → f.UnfinishedLead t id →
      f.Retreats t.order → f.Retreats t'.order
  | .seen _, _, _, _, horder => horder
  | .enter hnew hinner, ht, hid, hleads, horder => by
      have hvalid := ht.insert hid hnew
      have hvisited := hinner.visited hvalid fun b hb => (edge_iff.mp hb).2
      refine Retreats.cons (hinner.retreats hvalid (fun b hb => (edge_iff.mp hb).2)
        (fun b hb => hleads.enter hb) horder) fun b hedge => ?_
      -- the successors have been visited: they are finished, or were entered before the block
      obtain ⟨new, hext, _⟩ := hvisited.grows
      rw [hext.order, List.mem_append]
      rcases (hext.visited b).mp (hvisited.roots_mem b hedge) with hb | hb
      · exact .inl (.inl hb)
      · rcases List.mem_cons.mp hb with rfl | hb
        · exact .inr .refl
        · exact (hleads b hb).imp_left .inr

theorem VisitsAll.retreats {f : Function} {t t' : Traversal} {ids : List BlockId} :
    VisitsAll f t ids t' → t.Valid f → (∀ b ∈ ids, b < f.blocks.length) →
      (∀ b ∈ ids, f.UnfinishedLead t b) → f.Retreats t.order → f.Retreats t'.order
  | .nil, _, _, _, horder => horder
  | .cons hfirst hrest, ht, hids, hleads, horder => by
      have hfirstId := hids _ List.mem_cons_self
      have hvisited := hfirst.visited ht hfirstId
      refine hrest.retreats hvisited.valid (fun b hb => hids b (List.mem_cons_of_mem _ hb)) ?_
        (hfirst.retreats ht hfirstId (hleads _ List.mem_cons_self) horder)
      exact fun b hb => (hleads b (List.mem_cons_of_mem _ hb)).visited hvisited

end

/-! ## The order -/

theorem idxOf_middle {front rest : List BlockId} {b : BlockId} (h : b ∉ front) :
    (front ++ b :: rest).idxOf b = front.length := by
  rw [List.idxOf_append_of_notMem h, List.idxOf_cons_self, Nat.add_zero]

theorem Retreats.reaches {f : Function} {order : List BlockId} (h : f.Retreats order)
    (hnodup : order.Nodup) {a b : BlockId} (ha : a ∈ order) (hedge : f.Edge a b)
    (hle : order.idxOf b ≤ order.idxOf a) : f.Reaches b a := by
  obtain ⟨front, rest, rfl⟩ := List.append_of_mem ha
  refine (h front a rest rfl b hedge).resolve_left fun hrest => ?_
  obtain ⟨_, hback, hdisjoint⟩ := List.nodup_append.mp hnodup
  have hfront : b ∉ front := fun hb => hdisjoint b hb b (List.mem_cons_of_mem _ hrest) rfl
  have hne : a ≠ b := fun heq => (List.nodup_cons.mp hback).1 (heq ▸ hrest)
  rw [idxOf_middle fun hfront => hdisjoint a hfront a List.mem_cons_self rfl,
    List.idxOf_append_of_notMem hfront, List.idxOf_cons_ne _ hne] at hle
  omega

section

variable {f : Function} (hentry : f.entry < f.blocks.length)

include hentry

/-- The descent empties its stack, and has then visited what the recursive traversal visits. -/
theorem exists_descent :
    ∃ last : Descent, Relation.ReflTransGen (Descent.Step f) (.start f) last ∧ last.stack = [] ∧
      last.order = f.reversePostorder ∧
      (∀ steps, f.traversalSteps ≤ steps → Descent.run f steps (.start f) = last) ∧
      ∀ depth, f.blocks.length < depth → last.toTraversal = f.visit depth {} f.entry := by
  obtain ⟨t, hvisits, horder⟩ := visits_reversePostorder hentry
  refine ⟨⟨t, []⟩, hvisits.steps List.not_mem_nil [], rfl, horder, fun steps => hvisits.run_start,
    fun depth hdepth => ?_⟩
  exact hvisits.unique (visits_visit ⟨List.nodup_nil, by simp⟩ hentry hdepth)

theorem reversePostorder_retreats : f.Retreats f.reversePostorder := by
  obtain ⟨t, hvisits, horder⟩ := visits_reversePostorder hentry
  rw [← horder]
  refine hvisits.retreats ⟨List.nodup_nil, by simp⟩ hentry (by simp [UnfinishedLead]) ?_
  intro front a rest hsplit
  simp at hsplit

theorem exists_predecessor_before {b : BlockId} (hb : b ∈ f.reversePostorder)
    (hne : b ≠ f.entry) :
    ∃ a ∈ f.predecessors b, a ∈ f.reversePostorder ∧
      f.reversePostorder.idxOf a < f.reversePostorder.idxOf b := by
  obtain ⟨front, rest, hsplit⟩ := List.append_of_mem hb
  have hnodup := reversePostorder_nodup hentry
  obtain ⟨a, ha, hedge⟩ := (exists_edge_of_reversePostorder hentry hsplit).resolve_left hne
  rw [hsplit] at hnodup ⊢
  have hfront : b ∉ front := fun hb =>
    (List.nodup_append.mp hnodup).2.2 b hb b List.mem_cons_self rfl
  refine ⟨a, mem_predecessors.mpr (edge_iff.mp hedge).1, List.mem_append_left _ ha, ?_⟩
  rw [idxOf_middle hfront, List.idxOf_append_of_mem ha]
  exact List.idxOf_lt_length_of_mem ha

/-- The traversal comes to its end: step by step it empties its stack, within the steps that are
given to it, and has then done what recursion over the successors does, whatever bound on the
depth is given beyond the number of blocks. It lists the blocks that are reached, each once, the
entry first and every other block behind a predecessor. An edge leads back only to a block from
which its start is reached, so without cycles all edges lead on. -/
theorem reversePostorder_exact :
    (∃ last : Descent, Relation.ReflTransGen (Descent.Step f) (.start f) last ∧
      last.stack = [] ∧ last.order = f.reversePostorder ∧
      (∀ steps, f.traversalSteps ≤ steps → Descent.run f steps (.start f) = last) ∧
      ∀ depth, f.blocks.length < depth → last.toTraversal = f.visit depth {} f.entry) ∧
      (∀ depth, f.blocks.length < depth → (f.visit depth {} f.entry).order = f.reversePostorder) ∧
      (∀ b, b ∈ f.reversePostorder ↔ f.hasBlock b = true ∧ f.Reached b) ∧
      f.reversePostorder.Nodup ∧
      f.reversePostorder.head? = some f.entry ∧
      (∀ b ∈ f.reversePostorder, b ≠ f.entry → ∃ a ∈ f.predecessors b, a ∈ f.reversePostorder ∧
        f.reversePostorder.idxOf a < f.reversePostorder.idxOf b) ∧
      (∀ a b, f.Reached a → f.Reached b → b ∈ f.successors a →
        f.reversePostorder.idxOf b ≤ f.reversePostorder.idxOf a → f.Reaches b a) ∧
      ((∀ b, f.Reached b → ¬Relation.TransGen f.Edge b b) → ∀ a b, f.Reached a → f.Edge a b →
        f.reversePostorder.idxOf a < f.reversePostorder.idxOf b) := by
  have hmem : ∀ b, b ∈ f.reversePostorder ↔ f.Reached b := fun b => mem_reversePostorder_iff hentry
  have hexists : ∀ b, f.Reached b → b < f.blocks.length := by
    rintro b ⟨rest, hwalk⟩
    exact Walk.hasBlock hwalk hentry b List.mem_cons_self
  have hback : ∀ a b, f.Reached a → f.Edge a b →
      f.reversePostorder.idxOf b ≤ f.reversePostorder.idxOf a → f.Reaches b a :=
    fun a b ha hedge => (reversePostorder_retreats hentry).reaches (reversePostorder_nodup hentry)
      ((hmem a).mpr ha) hedge
  refine ⟨exists_descent hentry, fun depth hdepth => ?_, fun b => ?_,
    reversePostorder_nodup hentry, ?_, fun b => exists_predecessor_before hentry,
    fun a b ha hb hsuccessor => ?_, fun hacyclic a b ha hedge => ?_⟩
  · obtain ⟨last, _, _, horder, _, hvisit⟩ := exists_descent hentry
    rw [← hvisit depth hdepth, horder]
  · rw [hmem, hasBlock, decide_eq_true_eq]
    exact ⟨fun hb => ⟨hexists b hb, hb⟩, And.right⟩
  · obtain ⟨rest, horder⟩ := reversePostorder_head hentry
    rw [horder, List.head?_cons]
  · exact hback a b ha (edge_iff.mpr ⟨hsuccessor, hexists b hb⟩)
  · refine Nat.lt_of_not_le fun hle => hacyclic a ha ?_
    exact Relation.TransGen.head' hedge (hback a b ha hedge hle)

end

/-- Two blocks that follow each other, the second with a target that is missing. -/
def turning : Function where
  name := "turning"
  returnType := .void
  blocks := [
    { terminator := .branch (.i32 1) 1 2 },
    { terminator := .jump 2 },
    { terminator := .branch (.i32 0) 1 3 }]

/-- The edge from the last block goes back to the second, which leads to it. -/
theorem turning_order : turning.entry < turning.blocks.length ∧
    turning.reversePostorder = [0, 1, 2] ∧ turning.Reaches 1 2 := by
  have hentry : turning.entry < turning.blocks.length := by decide
  obtain ⟨_, _, hmem, _, _, _, hback, _⟩ := reversePostorder_exact hentry
  refine ⟨hentry, by decide, hback 2 1 ((hmem 2).mp ?_).2 ((hmem 1).mp ?_).2 ?_ ?_⟩ <;> decide

end Monolith.Function

import Monolith.Proofs.ControlFlow.Descent

/-! # Reverse postorder

The traversal visits the blocks that are reached from the entry, each once. In
the order that it gives, the entry is first and every other block stands behind
one of its predecessors.
-/

namespace Monolith.Function

open Traversal

section

variable {f : Function} (hentry : f.entry < f.blocks.length)

include hentry

/-- The order of a function with an entry comes of a visit of it. -/
theorem visits_reversePostorder :
    ∃ t, Visits f {} f.entry t ∧ t.order = f.reversePostorder := by
  have hbody : f.isDeclaration = false := by
    unfold isDeclaration
    cases hblocks : f.blocks with
    | nil => simp [hblocks] at hentry
    | cons _ _ => rfl
  have hvisits := visits_visit (t := {}) ⟨List.nodup_nil, by simp⟩ hentry (Nat.lt_succ_self _)
  refine ⟨_, hvisits, ?_⟩
  rw [reversePostorder, hbody, hvisits.run_start (Nat.le_refl _)]
  rfl

/-- The order of a function with an entry, as a traversal of all that is reached. -/
theorem reversePostorder_visited :
    ∃ t, Extends f {} t f.reversePostorder ∧ Rooted f [f.entry] f.reversePostorder ∧
      f.entry ∈ f.reversePostorder := by
  obtain ⟨t, hvisits, horder⟩ := visits_reversePostorder hentry
  have hvisited := hvisits.visited ⟨List.nodup_nil, by simp⟩ hentry
  obtain ⟨new, hext, hroot⟩ := hvisited.grows
  obtain rfl : f.reversePostorder = new := by simpa using horder.symm.trans hext.order
  refine ⟨t, hext, hroot, ?_⟩
  have hmem := hvisited.roots_mem f.entry List.mem_cons_self
  simpa [hext.visited] using hmem

theorem reversePostorder_nodup : f.reversePostorder.Nodup := by
  obtain ⟨_, hext, _⟩ := reversePostorder_visited hentry
  exact hext.nodup

/-- Every block of the order but the entry stands behind one of its predecessors. -/
theorem exists_edge_of_reversePostorder {front rest : List BlockId} {b : BlockId}
    (hsplit : f.reversePostorder = front ++ b :: rest) : b = f.entry ∨ ∃ a ∈ front, f.Edge a b := by
  obtain ⟨_, _, hroot, _⟩ := reversePostorder_visited hentry
  exact (hroot front b rest hsplit).imp_left List.mem_singleton.mp

theorem reversePostorder_head : ∃ rest, f.reversePostorder = f.entry :: rest := by
  obtain ⟨_, _, hroot, hmem⟩ := reversePostorder_visited hentry
  cases horder : f.reversePostorder with
  | nil => simp [horder] at hmem
  | cons b rest =>
      rcases hroot [] b rest horder with hb | ⟨a, ha, _⟩
      · exact ⟨rest, by rw [List.mem_singleton.mp hb]⟩
      · simp at ha

/-- The order holds exactly the blocks that are reached. -/
theorem mem_reversePostorder_iff {b : BlockId} : b ∈ f.reversePostorder ↔ f.Reached b := by
  obtain ⟨t, hext, hroot, hmem⟩ := reversePostorder_visited hentry
  constructor
  · -- A block at some place is reached through a predecessor at an earlier place.
    intro hb
    obtain ⟨front, rest, hsplit⟩ := List.append_of_mem hb
    clear hb
    induction hn : front.length using Nat.strongRecOn generalizing b front rest with
    | _ n ih =>
        rcases hroot front b rest hsplit with hb | ⟨a, ha, hedge⟩
        · rw [List.mem_singleton.mp hb]
          exact f.reached_entry
        · obtain ⟨before, after, rfl⟩ := List.append_of_mem ha
          refine Reached.step (ih before.length ?_ before (after ++ b :: rest) ?_ rfl) hedge
          · rw [← hn, List.length_append, List.length_cons]
            omega
          · rw [hsplit, List.append_assoc, List.cons_append]
  · rintro ⟨rest, hwalk⟩
    refine hwalk.forall_mem hmem (fun a c ha hedge => ?_) b List.mem_cons_self
    simpa [hext.visited] using hext.closed a ha c hedge

end

end Monolith.Function

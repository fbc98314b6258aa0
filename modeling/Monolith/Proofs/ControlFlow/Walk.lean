import Mathlib.Tactic.Common
import Monolith.ControlFlow

/-! # Walks

A trail follows edges from a fixed start. It is kept with its last node first,
so that going on adds to the front and every earlier visit is a suffix. The
walks of a function are the trails of its blocks from the entry.
-/

namespace Monolith

variable {f : Function} {nodes : List Nat} {a b : BlockId}

/-- The nodes that are visited by following edges from `start`, the last one first. -/
inductive Trail (edge : Nat → Nat → Prop) (start : Nat) : List Nat → Prop where
  | start : Trail edge start [start]
  | step {a b : Nat} {rest : List Nat} (trail : Trail edge start (a :: rest))
      (next : edge a b) : Trail edge start (b :: a :: rest)

namespace Trail

variable {edge : Nat → Nat → Prop} {start : Nat}

theorem start_mem (trail : Trail edge start nodes) : start ∈ nodes := by
  induction trail with
  | start => exact List.mem_cons_self
  | step _ _ ih => exact List.mem_cons_of_mem _ ih

/-- Every earlier visit ends a trail of its own. -/
theorem suffix {front rest : List Nat} {a : Nat}
    (trail : Trail edge start (front ++ a :: rest)) : Trail edge start (a :: rest) := by
  induction front with
  | nil => exact trail
  | cons b front ih =>
      apply ih
      rw [List.cons_append] at trail
      generalize hnodes : front ++ a :: rest = nodes at trail
      cases trail with
      | start => simp at hnodes
      | step trail _ => exact trail

/-- A visited node has a first visit, and the trail up to it visits it once. -/
theorem first_visit (trail : Trail edge start nodes) {b : Nat} (hmem : b ∈ nodes) :
    ∃ front first, nodes = front ++ b :: first ∧ b ∉ first ∧ Trail edge start (b :: first) := by
  induction trail with
  | start =>
      obtain rfl := List.mem_singleton.mp hmem
      exact ⟨[], [], rfl, List.not_mem_nil, .start⟩
  | @step a c rest trail next ih =>
      by_cases hrest : b ∈ a :: rest
      · obtain ⟨front, first, hsplit, hnot, hfirst⟩ := ih hrest
        exact ⟨c :: front, first, by rw [hsplit, List.cons_append], hnot, hfirst⟩
      · obtain rfl := (List.mem_cons.mp hmem).resolve_right hrest
        exact ⟨[], a :: rest, rfl, hrest, trail.step next⟩

/-- A map that takes edges to edges takes trails to trails. -/
theorem map {other : Nat → Nat → Prop} (trail : Trail edge start nodes) (g : Nat → Nat)
    (hedge : ∀ a b, a ∈ nodes → edge a b → b ∈ nodes → other (g a) (g b)) :
    Trail other (g start) (nodes.map g) := by
  induction trail with
  | start => exact .start
  | step trail next ih =>
      refine .step (ih fun a b ha hab hb => ?_) ?_
      · exact hedge a b (List.mem_cons_of_mem _ ha) hab (List.mem_cons_of_mem _ hb)
      · exact hedge _ _ (List.mem_cons_of_mem _ List.mem_cons_self) next List.mem_cons_self

/-- A property of the start that edges keep holds of all nodes. -/
theorem forall_mem (trail : Trail edge start nodes) {P : Nat → Prop} (hstart : P start)
    (hedge : ∀ a b, P a → edge a b → P b) : ∀ b ∈ nodes, P b := by
  induction trail with
  | start => simpa using hstart
  | step trail next ih =>
      intro b hb
      rcases List.mem_cons.mp hb with rfl | hrest
      · exact hedge _ _ (ih _ List.mem_cons_self) next
      · exact ih b hrest

end Trail

namespace Function

def Edge (f : Function) (a b : BlockId) : Prop := b ∈ f.existingSuccessors a

/-- A way through the blocks from the entry, the last block first. -/
abbrev Walk (f : Function) : List BlockId → Prop := Trail f.Edge f.entry

def Reached (f : Function) (b : BlockId) : Prop := ∃ rest, f.Walk (b :: rest)

/-- The block is reached, and only through the given one. -/
def Dominates (f : Function) (a b : BlockId) : Prop :=
  f.Reached b ∧ ∀ rest, f.Walk (b :: rest) → a ∈ b :: rest

theorem edge_iff : f.Edge a b ↔ b ∈ f.successors a ∧ b < f.blocks.length := by
  simp [Edge, existingSuccessors, hasBlock]

theorem mem_successors :
    b ∈ f.successors a ↔ ∃ block, f.block? a = some block ∧ b ∈ block.terminator.targets := by
  unfold successors
  cases f.block? a <;> simp

theorem mem_predecessors : a ∈ f.predecessors b ↔ b ∈ f.successors a := by
  rw [mem_successors]
  simp only [predecessors, List.mem_map, List.mem_filter, List.contains_iff_mem, Prod.exists,
    exists_eq_right, List.mem_zipIdx_iff_getElem?, block?]

theorem Walk.hasBlock {walk : List BlockId} (hwalk : f.Walk walk)
    (hentry : f.entry < f.blocks.length) : ∀ b ∈ walk, b < f.blocks.length :=
  hwalk.forall_mem hentry fun _ _ _ hedge => (edge_iff.mp hedge).2

theorem reached_entry (f : Function) : f.Reached f.entry := ⟨[], .start⟩

theorem Reached.step (ha : f.Reached a) (hedge : f.Edge a b) : f.Reached b := by
  obtain ⟨rest, hwalk⟩ := ha
  exact ⟨a :: rest, hwalk.step hedge⟩

theorem Walk.reached {walk : List BlockId} (hwalk : f.Walk walk) : ∀ b ∈ walk, f.Reached b :=
  hwalk.forall_mem f.reached_entry fun _ _ ha hedge => ha.step hedge

end Function

end Monolith

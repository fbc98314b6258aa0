/-! # Exploring a relation

Exploration takes the entry that was put on the worklist last, skips it if it
has been visited, and else visits it and puts all that follows it on the
worklist.
-/

namespace Monolith

/-- What is visited from the worklist `pending`, whose first entry is taken first.
The visited entries are kept last first. -/
def exploreFrom (next : Nat → List Nat) : Nat → List Nat → List Nat → List Nat
  | 0, _, visited => visited
  | _ + 1, [], visited => visited
  | steps + 1, current :: pending, visited =>
      if visited.contains current then exploreFrom next steps pending visited
      else exploreFrom next steps ((next current).reverse ++ pending) (current :: visited)

/-- The entries that are reached from `start`, in the order in which they are
visited. Only the listed nodes have successors, so every entry but those of
`start` is put on the worklist as a successor of a node, once for each. -/
def explore (nodes : List Nat) (next : Nat → List Nat) (start : List Nat) : List Nat :=
  let steps := start.length + (nodes.flatMap next).length
  (exploreFrom next steps start.reverse []).reverse

/-- The entries that are equal to an earlier one. -/
def repeats {α : Type} [BEq α] (entries : List α) : List α :=
  (entries.zipIdx.filter fun (entry, index) => (entries.take index).contains entry).map Prod.fst

end Monolith

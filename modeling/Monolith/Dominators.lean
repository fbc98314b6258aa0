import Monolith.ControlFlow

/-! # Dominators

The tree is computed on positions in reverse postorder. Every reached position
links to a smaller one, at first to any of its predecessors; a round moves each
link up to where the chains of all linked predecessors meet, and rounds are
repeated until nothing changes.
-/

namespace Monolith

/-- For each position the one that it is linked to; the first links to itself. -/
abbrev Links := List (Option Nat)

namespace Links

def up? (links : Links) (position : Nat) : Option Nat := links[position]?.join

/-- Where the chains from two positions meet. Links lead to smaller positions, so
`steps` need not exceed the sum of the two. -/
def meet? (links : Links) : Nat → Nat → Nat → Option Nat
  | 0, a, b => if a = b then some a else none
  | steps + 1, a, b =>
      if a = b then some a
      else if b < a then (links.up? a).bind fun a => links.meet? steps a b
      else (links.up? b).bind fun b => links.meet? steps a b

/-- Links a position to where the chains of its linked predecessors meet. -/
def refine? (predecessors : List Nat) (links : Links) (position : Nat) : Option Links :=
  match predecessors.filter fun p => (links.up? p).isSome with
  | [] => some links
  | first :: rest => do
      let parent ← rest.foldlM (fun current p => links.meet? (p + current) p current) first
      return links.set position (some parent)

/-- Refines all positions but the first, in order. -/
def round? (predecessors : List (List Nat)) (links : Links) : Option Links :=
  (predecessors.zipIdx.drop 1).foldlM (fun links (ps, position) => refine? ps links position)
    links

/-- Repeats rounds until one changes nothing. -/
def settle? (predecessors : List (List Nat)) : Nat → Links → Option Links
  | 0, _ => none
  | rounds + 1, links => do
      let next ← links.round? predecessors
      if next = links then return links else next.settle? predecessors rounds

/-- Whether the chain from `position` passes through `target`. -/
def passes (links : Links) (target : Nat) : Nat → Nat → Bool
  | 0, position => position = target
  | steps + 1, position =>
      position = target ||
        (position ≠ 0 && ((links.up? position).map (links.passes target steps)).getD false)

end Links

/-- The dominator tree of the blocks that are reached from the entry. -/
structure DominatorTree where
  /-- The blocks in reverse postorder. -/
  order : List BlockId
  links : Links

namespace DominatorTree

def position? (tree : DominatorTree) (id : BlockId) : Option Nat := tree.order.idxOf? id

def isReachable (tree : DominatorTree) (id : BlockId) : Bool := (tree.position? id).isSome

/-- The closest strict dominator. The entry and the blocks that are not reached
have none. -/
def immediateDominator? (tree : DominatorTree) (id : BlockId) : Option BlockId := do
  let position ← tree.position? id
  if position = 0 then none else tree.order[← tree.links.up? position]?

def dominates (tree : DominatorTree) (a b : BlockId) : Bool :=
  match tree.position? a, tree.position? b with
  | some a, some b => tree.links.passes a b b
  | _, _ => false

end DominatorTree

namespace Function

/-- The predecessors of each reached block as positions in reverse postorder. -/
def predecessorPositions (f : Function) (order : List BlockId) : List (List Nat) :=
  order.map fun id => (f.predecessors id).filterMap order.idxOf?

/-- Every round but the last moves a link to a smaller position, so the square of
their number bounds the rounds. -/
def dominatorTree? (f : Function) : Option DominatorTree := do
  let order := f.reversePostorder
  let start := order.zipIdx.map fun (_, position) => if position = 0 then some 0 else none
  let rounds := order.length * order.length + 2
  let links ← Links.settle? (f.predecessorPositions order) rounds start
  return { order, links }

/-- The dominator tree. It always exists; the alternative has no links. -/
def dominatorTree (f : Function) : DominatorTree :=
  f.dominatorTree?.getD { order := f.reversePostorder, links := [] }

end Function

end Monolith

import Monolith.Function.Basic

/-! # Control flow

Control passes from a block to the targets of its terminator. A target that
does not exist is nobody's successor in a traversal, but it has predecessors.
-/

namespace Monolith.Function

def successors (f : Function) (id : BlockId) : List BlockId :=
  ((f.block? id).map fun block => block.terminator.targets).getD []

/-- The blocks that the given one may pass control to, without missing targets. -/
def existingSuccessors (f : Function) (id : BlockId) : List BlockId :=
  (f.successors id).filter f.hasBlock

/-- The blocks that have the given one as a target, by increasing id. -/
def predecessors (f : Function) (id : BlockId) : List BlockId :=
  (f.blocks.zipIdx.filter fun (block, _) => block.terminator.targets.contains id).map Prod.snd

/-- The blocks and the missing targets, by increasing id, each with its predecessors. -/
def predecessorTable (f : Function) : List (BlockId × List BlockId) :=
  let targets := f.blocks.flatMap fun block => block.terminator.targets
  let missing := (targets.filter fun id => !f.hasBlock id).eraseDups
  (List.range f.blocks.length ++ missing.mergeSort (· ≤ ·)).map fun id => (id, f.predecessors id)

/-- What a depth-first traversal has visited. -/
structure Traversal where
  visited : List BlockId := []
  /-- The blocks that are done with, the last one first. -/
  order : List BlockId := []

/-- A depth-first traversal under way. -/
structure Descent extends Traversal where
  /-- The blocks that have been entered and are not done with, the last one first,
  each with the number of its successors that have been looked at. -/
  stack : List (BlockId × Nat)

namespace Descent

def start (f : Function) : Descent := { visited := [f.entry], stack := [(f.entry, 0)] }

/-- Looks at the next successor of the block on top of the stack. It is entered if it
exists and is new. A block without a next successor is done with. -/
def step? (f : Function) (d : Descent) : Option Descent :=
  match d.stack with
  | [] => none
  | (id, next) :: below =>
      match (f.successors id)[next]? with
      | none => some { d with order := id :: d.order, stack := below }
      | some target =>
          if f.hasBlock target && !d.visited.contains target then
            some { d with
              visited := target :: d.visited
              stack := (target, 0) :: (id, next + 1) :: below }
          else some { d with stack := (id, next + 1) :: below }

/-- Goes on until the stack is empty, for at most the given number of steps. -/
def run (f : Function) : Nat → Descent → Descent
  | 0, d => d
  | steps + 1, d =>
      match d.step? f with
      | none => d
      | some next => run f steps next

end Descent

/-- Every block is entered at most once. It is then looked at once for each of its
successors, and once more. The entry need not be a block. -/
def traversalSteps (f : Function) : Nat :=
  (f.blocks.flatMap fun block => block.terminator.targets).length + f.blocks.length + 1

/-- The blocks that are reached from the entry, each before the blocks that the
traversal had finished earlier. -/
def reversePostorder (f : Function) : List BlockId :=
  if f.isDeclaration then [] else (Descent.run f f.traversalSteps (.start f)).order

end Monolith.Function

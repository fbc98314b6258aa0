import Monolith.CallGraph
import Monolith.Config
import Monolith.Failure

/-! # Inline plan

The plan orders the functions with a body by the number of functions that they
reach through calls, the root last. All of them but the root are to be inlined.
-/

namespace Monolith

structure Plan where
  root : FunctionId
  order : List FunctionId
  deriving DecidableEq, Inhabited

namespace Plan

/-- Whether calls of the function are to be inlined. -/
def forces (plan : Plan) (id : FunctionId) : Bool := plan.order.contains id && id ≠ plan.root

/-- The functions whose calls are to be inlined, in order. -/
def forced (plan : Plan) : List FunctionId := plan.order.filter plan.forces

/-- Whether `f` may stand before `g`: the root is last, a function that reaches
fewer others comes first, and of two that reach equally many the one with the
smaller id. -/
def precedes (root : FunctionId) (f g : FunctionId × Nat) : Bool :=
  if f.1 = root then g.1 = root
  else if g.1 = root then true
  else if f.2 = g.2 then f.1 ≤ g.1
  else f.2 < g.2

def orderOf (graph : CallGraph) (root : FunctionId) (ids : List FunctionId) :
    List FunctionId :=
  let weighted := ids.map fun id => (id, (graph.transitiveCallees id).length)
  (weighted.mergeSort (precedes root)).map Prod.fst

def compute (config : Config) (m : Module) (graph : CallGraph) : Except Failure Plan :=
  match config.resolveRoot m with
  | none => reject (.noRoot (config.rootName m))
  | some root =>
      if (m.function? root).any Function.isDeclaration then
        reject (.rootIsDeclaration (m.functionName root))
      else .ok { root, order := orderOf graph root (m.definitions.map Prod.fst) }

/-- No function that is to be inlined may be a library routine, and none may reach
itself through functions that are to be inlined. -/
def validate (plan : Plan) (config : Config) (m : Module) (graph : CallGraph) :
    Except Failure Unit := do
  let library := config.library.table
  match plan.forced.find? fun id => (m.function? id).any library.coversFunction with
  | some id => reject (.libraryRoutine (m.functionName id))
  | none => pure ()
  match plan.forced.findSome? fun id => (graph.findCycle plan.forces id).map (id, ·) with
  | some (id, cycle) =>
      reject (.recursiveInline (m.functionName id) (cycle.map m.functionName))
  | none => pure ()

end Plan

end Monolith

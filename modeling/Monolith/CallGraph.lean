import Monolith.Module.Basic
import Monolith.Worklist

/-! # Call graph

Only direct calls of functions that are in the module are edges. Calls through
a variable or a constant expression, and calls of erased functions, are kept as
sites without a callee.
-/

namespace Monolith

structure CallGraph where
  /-- What the calls of each function name, in order. -/
  sites : Arena (List (Option FunctionId))
  deriving DecidableEq, Inhabited

namespace CallGraph

def ofModule (m : Module) : CallGraph where
  sites := m.functions.mapLive fun f =>
    f.callees.map fun callee => callee.function?.filter fun id => (m.function? id).isSome

/-- The functions that are called directly, in the order of their first calls. -/
def callees (graph : CallGraph) (id : FunctionId) : List FunctionId :=
  (((graph.sites.get? id).getD []).filterMap fun callee => callee).eraseDups

/-- The functions that are reached by one or more calls. -/
def transitiveCallees (graph : CallGraph) (id : FunctionId) : List FunctionId :=
  explore graph.sites.ids graph.callees (graph.callees id)

/-- The path to `origin` and back that ends with `path`, found by going from a
function to the one that it was reached from. -/
def retrace (parents : List (FunctionId × FunctionId)) (origin : FunctionId) :
    Nat → FunctionId → List FunctionId → Option (List FunctionId)
  | 0, _, _ => none
  | steps + 1, current, path =>
      if current = origin then some (origin :: path)
      else (parents.lookup current).bind fun parent =>
        retrace parents origin steps parent (current :: path)

/-- Searches for a way back to `origin`, taking the function that was reached last.
`parents` holds for each function that was reached where it was reached from. -/
def cycleFrom (graph : CallGraph) (allowed : FunctionId → Bool) (origin : FunctionId) :
    Nat → List FunctionId → List (FunctionId × FunctionId) → Option (List FunctionId)
  | 0, _, _ => none
  | _ + 1, [], _ => none
  | steps + 1, current :: pending, parents =>
      let callees := graph.callees current
      if callees.contains origin then
        retrace parents origin (parents.length + 1) current [origin]
      else
        let fresh := callees.filter fun id => allowed id && (parents.lookup id).isNone
        graph.cycleFrom allowed origin steps (fresh.reverse ++ pending)
          (fresh.map (·, current) ++ parents)

/-- A path of calls from `origin` back to it whose other functions are all allowed.
Every function is reached at most once, and only as a callee, which bounds the search. -/
def findCycle (graph : CallGraph) (allowed : FunctionId → Bool) (origin : FunctionId) :
    Option (List FunctionId) :=
  graph.cycleFrom allowed origin ((graph.sites.ids.flatMap graph.callees).length + 1) [origin] []

end CallGraph

end Monolith

import Monolith.Failure
import Monolith.Module.Basic
import Monolith.Worklist

/-! # Owners of globals

A function uses a global if it mentions it, or mentions a global whose
initializer leads to it. The owner of a global is the one function that uses it.
-/

namespace Monolith.Module

/-- The functions that mention the global in an operand. -/
def mentioners (m : Module) (id : GlobalId) : List FunctionId :=
  (m.functions.entries.filter fun (_, f) => f.operands.any (·.mentionsGlobal id)).map Prod.fst

/-- The globals that mention the global in their initializers. -/
def holders (m : Module) (id : GlobalId) : List GlobalId :=
  (m.globals.entries.filter fun (_, g) => g.initializer.any (·.mentionsGlobal id)).map Prod.fst

/-- The functions that use the global, in the order in which they are found. -/
def users (m : Module) (id : GlobalId) : List FunctionId :=
  ((explore m.globals.ids m.holders [id]).flatMap m.mentioners).eraseDups

def owner (m : Module) (id : GlobalId) (g : Global) : Except Failure FunctionId :=
  match m.users id with
  | [] => reject (.unownedGlobal g.name)
  | [f] => .ok f
  | fs => reject (.sharedGlobal g.name (fs.map m.functionName))

/-- All globals with their owners. -/
def owners (m : Module) : Except Failure (List (GlobalId × FunctionId)) :=
  m.globals.entries.mapM fun (id, g) => return (id, ← m.owner id g)

end Monolith.Module

import Monolith.Module.Basic

/-! # Dead calls

A call is dead if its callee is a constant with poison in it: the function it
named is gone. Sweeping removes dead calls, and their results become poison.
-/

namespace Monolith

def Operation.isDeadCall (op : Operation) : Bool := op.callee?.any Operand.containsPoison

namespace Function

def deadCalls (f : Function) : List Operation :=
  f.blocks.flatMap fun block => (block.instructions.map (·.op)).filter Operation.isDeadCall

/-- The results of the dead calls, with their types. -/
def deadResults (f : Function) : List (ValueId × Ty) :=
  f.deadCalls.filterMap fun
    | .call (some dest) returnType _ _ => some (dest, returnType)
    | _ => none

def dropDeadCalls (f : Function) : Function :=
  { f with
    blocks := f.blocks.map (·.mapInstructions (·.filter fun i => !i.op.isDeadCall)) }

def sweep (f : Function) : Function :=
  f.deadResults.foldl (fun f (dest, ty) => f.replaceVar dest (.poison ty)) f.dropDeadCalls

end Function

namespace Module

def deadCallCount (m : Module) : Nat :=
  (m.functions.entries.flatMap fun (_, f) => f.deadCalls).length

def sweep (m : Module) : Module := { m with functions := m.functions.mapLive Function.sweep }

end Module

end Monolith

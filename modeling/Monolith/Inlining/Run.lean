import Monolith.Inlining.Call
import Monolith.Inlining.Plan

/-! # Forced inlining

The functions that are kept have their calls inlined one by one, first call
first, until none is left that the plan forces. A function that is passed on as
an argument may become the callee of a new direct call, so the process need not
end; it is given a budget of calls.
-/

namespace Monolith.Plan

def forcesCall (plan : Plan) (m : Module) (op : Operation) : Bool :=
  op.directCallee?.any fun id =>
    plan.forces id && (m.function? id).any fun callee => !callee.isDeclaration

/-- The first call of a function that is to be inlined. -/
def nextCall? (plan : Plan) (m : Module) (caller : FunctionId) : Option (BlockId × Nat) := do
  let f ← m.function? caller
  f.blocks.zipIdx.findSome? fun (block, id) =>
    (block.instructions.findIdx? fun i => plan.forcesCall m i.op).map (id, ·)

/-- Inlines the calls of a function and counts them. A failure leaves the module with
the calls inlined that came before. -/
def inlineInto (plan : Plan) (caller : FunctionId) :
    Nat → Module → Except (Aborted Module) (Module × Nat)
  | 0, m =>
      match plan.nextCall? m caller with
      | none => .ok (m, 0)
      | some _ => leaving m (.error .budgetExhausted)
  | budget + 1, m =>
      match plan.nextCall? m caller with
      | none => .ok (m, 0)
      | some (block, index) => do
          match ← leaving m (m.inlineCall caller block index) with
          | none => return (m, 0)
          | some next =>
              let (result, count) ← plan.inlineInto caller budget next
              return (result, count + 1)

/-- The functions whose calls are looked at. -/
def callers (plan : Plan) (m : Module) : List FunctionId :=
  (m.definitions.map Prod.fst).filter fun id => !plan.forces id

/-- Inlines the calls of all functions that are kept and counts them. -/
def inlineCalls (plan : Plan) (budget : Nat) (m : Module) :
    Except (Aborted Module) (Module × Nat) :=
  (plan.callers m).foldlM (fun (m, count) caller => do
    let (next, more) ← plan.inlineInto caller (budget - count) m
    return (next, count + more)) (m, 0)

/-- How inlining ends, without what a failure leaves. -/
def inlineAll (plan : Plan) (budget : Nat) (m : Module) : Except Failure (Module × Nat) :=
  (plan.inlineCalls budget m).mapError Aborted.failure

end Monolith.Plan

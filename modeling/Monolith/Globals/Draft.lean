import Monolith.Function.Basic

/-! # Drafts

Code that is being written for a function: the variables recorded so far, the
instructions in order, and the instructions that belong at the ends of other
blocks.
-/

namespace Monolith

structure Draft where
  values : List ValueInfo
  code : List Instruction := []
  edges : List (BlockId × List Instruction) := []

namespace Draft

/-- Records a new variable without a name. -/
def newValue (ty : Ty) : StateM Draft ValueId :=
  modifyGet fun draft =>
    (draft.values.length, { draft with values := draft.values ++ [{ ty }] })

def emit (op : Operation) : StateM Draft Unit :=
  modify fun draft => { draft with code := draft.code ++ [{ op }] }

end Draft

end Monolith

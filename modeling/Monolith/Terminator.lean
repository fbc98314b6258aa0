import Monolith.Instruction.Text

/-! # Terminators

A terminator ends a block: it passes control to other blocks of the function,
returns from the function, or marks a point that is never reached.
-/

namespace Monolith

inductive Terminator where
  | jump (target : BlockId)
  | branch (condition : Operand) (onTrue onFalse : BlockId)
  | ret (value : Option Operand)
  | unreachable
  deriving DecidableEq, Inhabited

namespace Terminator

def targets : Terminator → List BlockId
  | .jump target => [target]
  | .branch _ onTrue onFalse => [onTrue, onFalse]
  | .ret _ => []
  | .unreachable => []

def operands : Terminator → List Operand
  | .jump _ => []
  | .branch condition _ _ => [condition]
  | .ret value => value.toList
  | .unreachable => []

def mapOperands (f : Operand → Operand) : Terminator → Terminator
  | .jump target => .jump target
  | .branch condition onTrue onFalse => .branch (f condition) onTrue onFalse
  | .ret value => .ret (value.map f)
  | .unreachable => .unreachable

def mapOperandsM {m : Type → Type} [Monad m] (f : Operand → m Operand) :
    Terminator → m Terminator
  | .branch condition onTrue onFalse => do return .branch (← f condition) onTrue onFalse
  | .ret (some value) => do return .ret (some (← f value))
  | terminator => pure terminator

def mapTargets (rename : BlockId → BlockId) : Terminator → Terminator
  | .jump target => .jump (rename target)
  | .branch condition onTrue onFalse => .branch condition (rename onTrue) (rename onFalse)
  | .ret value => .ret value
  | .unreachable => .unreachable

/-- The variables that are read, in order. -/
def uses (terminator : Terminator) : List ValueId := terminator.operands.filterMap Operand.var?

def isReturn : Terminator → Bool
  | .ret _ => true
  | _ => false

def endsFunction : Terminator → Bool
  | .ret _ => true
  | .unreachable => true
  | _ => false

def text : Terminator → String
  | .jump target => "br " ++ blockText target
  | .branch condition onTrue onFalse =>
      "br " ++ condition.text ++ ", " ++ blockText onTrue ++ ", " ++ blockText onFalse
  | .ret (some value) => "ret " ++ value.text
  | .ret none => "ret void"
  | .unreachable => "unreachable"

open Monolith.Json (Record Decoder)

def toJson : Terminator → Json
  | .jump target => .tagged "Jump" (.object [("target", .nat target)])
  | .branch condition onTrue onFalse =>
      .tagged "Branch" (.object
        [("condition", condition.toJson), ("then_target", .nat onTrue),
          ("else_target", .nat onFalse)])
  | .ret value =>
      .tagged "Return" (.object [("value", .optional (value.map Operand.toJson))])
  | .unreachable => .string "Unreachable"

def decode : Decoder Terminator
  | _, .str (some "Unreachable") => some .unreachable
  | _ + 1, .obj [(some "Unreachable", .null)] => some .unreachable
  | levels + 2, .obj [(some "Jump", content)] => do
      let record ← Record.ofJson? ["target"] content
      let target ← record.required "target" (Json.Decode.index levels)
      return .jump target
  | levels + 2, .obj [(some "Branch", content)] => do
      let record ← Record.ofJson? ["condition", "then_target", "else_target"] content
      let condition ← record.required "condition" (Operand.decode levels)
      let onTrue ← record.required "then_target" (Json.Decode.index levels)
      let onFalse ← record.required "else_target" (Json.Decode.index levels)
      return .branch condition onTrue onFalse
  | levels + 2, .obj [(some "Return", content)] => do
      let record ← Record.ofJson? ["value"] content
      let value ← record.nullable "value" (Operand.decode levels)
      return .ret value
  | _, _ => none

end Terminator

end Monolith

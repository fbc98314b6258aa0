import Monolith.Constant.Json
import Monolith.Constant.Text

/-! # Operands

An operand reads a variable of the function or is a constant.
-/

namespace Monolith

abbrev ValueId := Nat

abbrev BlockId := Nat

inductive Operand where
  | var (id : ValueId)
  | const (value : Constant)
  deriving DecidableEq, Inhabited

namespace Operand

def i32 (value : Int64) : Operand := .const (.i32 value)

def poison (ty : Ty) : Operand := .const (.poison ty)

def var? : Operand → Option ValueId
  | .var id => some id
  | .const _ => none

def const? : Operand → Option Constant
  | .var _ => none
  | .const value => some value

/-- The function that the operand is a bare reference to. -/
def function? : Operand → Option FunctionId
  | .var _ => none
  | .const value => value.function?

def isPoison : Operand → Bool
  | .var _ => false
  | .const value => value.isPoison

/-- Whether the operand is a constant with a poison constant in it. -/
def containsPoison : Operand → Bool
  | .var _ => false
  | .const value => value.containsPoison

/-- The globals that are mentioned, in order. -/
def globals : Operand → List GlobalId
  | .var _ => []
  | .const value => value.globals

/-- The functions that are mentioned, in order. -/
def functions : Operand → List FunctionId
  | .var _ => []
  | .const value => value.functions

def mentionsGlobal (id : GlobalId) (operand : Operand) : Bool := operand.globals.contains id

/-- Puts `replacement` in place of the variable. -/
def replaceVar (id : ValueId) (replacement : Operand) (operand : Operand) : Operand :=
  if operand = .var id then replacement else operand

def replaceFunction (id : FunctionId) (replacement : Constant) : Operand → Operand
  | .var id => .var id
  | .const value => .const (Constant.replaceFunction id replacement value)

def functionUses (id : FunctionId) (operand : Operand) : Nat := operand.functions.count id

def text : Operand → String
  | .var id => "%" ++ toString id
  | .const value => value.text

def toJson : Operand → Json
  | .var id => .tagged "Local" (.nat id)
  | .const value => .tagged "Constant" value.toJson

def decode : Json.Decoder Operand
  | levels + 1, .obj [(some "Local", id)] => (Json.Decode.index levels id).map .var
  | levels + 1, .obj [(some "Constant", value)] => (Constant.decode levels value).map .const
  | _, _ => none

end Operand

/-- The operands separated by commas. -/
def operandsText (operands : List Operand) : String :=
  ", ".intercalate (operands.map Operand.text)

end Monolith

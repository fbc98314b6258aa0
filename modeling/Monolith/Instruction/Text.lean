import Monolith.Instruction.Basic

/-! # Text of instructions -/

namespace Monolith

def BinaryOp.text : BinaryOp → String
  | .add => "add"
  | .sub => "sub"
  | .mul => "mul"
  | .sdiv => "sdiv"
  | .udiv => "udiv"
  | .srem => "srem"
  | .urem => "urem"
  | .and => "and"
  | .or => "or"
  | .xor => "xor"
  | .shl => "shl"
  | .lshr => "lshr"
  | .ashr => "ashr"

def Predicate.text : Predicate → String
  | .eq => "eq"
  | .ne => "ne"
  | .slt => "slt"
  | .sle => "sle"
  | .sgt => "sgt"
  | .sge => "sge"
  | .ult => "ult"
  | .ule => "ule"
  | .ugt => "ugt"
  | .uge => "uge"

def blockText (block : BlockId) : String := "bb" ++ toString block

/-- What stands before the name of an operation that has a result. -/
def destText (dest : ValueId) : String := "%" ++ toString dest ++ " = "

def alignText (align : UInt64) : String := ", align " ++ toString align.toNat

def incomingText (entry : Operand × BlockId) : String :=
  "[ " ++ entry.1.text ++ ", " ++ blockText entry.2 ++ " ]"

namespace Operation

def text : Operation → String
  | .alloca dest ty align addrSpace =>
      let space :=
        if addrSpace = 0 then "" else ", addrspace(" ++ toString addrSpace.toNat ++ ")"
      destText dest ++ "alloca " ++ ty.text ++ alignText align ++ space
  | .load dest ty address align =>
      destText dest ++ "load " ++ ty.text ++ ", " ++ address.text ++ alignText align
  | .store value address align =>
      "store " ++ value.text ++ ", " ++ address.text ++ alignText align
  | .elementPtr dest source base indices inbounds =>
      destText dest ++ "getelementptr" ++ (if inbounds then " inbounds" else "") ++ " " ++
        source.text ++ ", " ++ base.text ++ ", " ++ operandsText indices
  | .binary op dest ty lhs rhs =>
      destText dest ++ op.text ++ " " ++ ty.text ++ " " ++ lhs.text ++ ", " ++ rhs.text
  | .compare predicate dest lhs rhs =>
      destText dest ++ "icmp " ++ predicate.text ++ " " ++ lhs.text ++ ", " ++ rhs.text
  | .cast op dest value ty =>
      destText dest ++ op.text ++ " " ++ value.text ++ " to " ++ ty.text
  | .call dest returnType callee args =>
      (dest.map destText).getD "" ++ "call " ++ returnType.text ++ " " ++ callee.text ++
        "(" ++ operandsText args ++ ")"
  | .phi dest ty incoming =>
      destText dest ++ "phi " ++ ty.text ++ " " ++
        ", ".intercalate (incoming.map incomingText)

end Operation

/-- The text of an instruction ends with its comment. -/
def Instruction.text (instruction : Instruction) : String :=
  match instruction.comment with
  | some comment => instruction.op.text ++ " ; " ++ comment
  | none => instruction.op.text

end Monolith

import Monolith.Instruction.Basic

/-! # JSON form of instructions -/

namespace Monolith

open Monolith.Json (Record Decoder)

namespace BinaryOp

def name : BinaryOp → String
  | .add => "Add"
  | .sub => "Sub"
  | .mul => "Mul"
  | .sdiv => "SDiv"
  | .udiv => "UDiv"
  | .srem => "SRem"
  | .urem => "URem"
  | .and => "And"
  | .or => "Or"
  | .xor => "Xor"
  | .shl => "Shl"
  | .lshr => "LShr"
  | .ashr => "AShr"

def all : List BinaryOp :=
  [.add, .sub, .mul, .sdiv, .udiv, .srem, .urem, .and, .or, .xor, .shl, .lshr, .ashr]

def toJson (op : BinaryOp) : Json := .string op.name

def decode : Decoder BinaryOp := Json.Decode.choice (all.map fun op => (op.name, op))

end BinaryOp

namespace Predicate

def name : Predicate → String
  | .eq => "Eq"
  | .ne => "Ne"
  | .slt => "Slt"
  | .sle => "Sle"
  | .sgt => "Sgt"
  | .sge => "Sge"
  | .ult => "Ult"
  | .ule => "Ule"
  | .ugt => "Ugt"
  | .uge => "Uge"

def all : List Predicate := [.eq, .ne, .slt, .sle, .sgt, .sge, .ult, .ule, .ugt, .uge]

def toJson (predicate : Predicate) : Json := .string predicate.name

def decode : Decoder Predicate := Json.Decode.choice (all.map fun op => (op.name, op))

end Predicate

namespace Operation

def incomingToJson (entry : Operand × BlockId) : Json :=
  .arr [entry.1.toJson, .nat entry.2]

def toJson : Operation → Json
  | .alloca dest ty align addrSpace =>
      .tagged "Alloca" (.object
        [("dest", .nat dest), ("ty", ty.toJson), ("align", .nat align.toNat),
          ("addr_space", .nat addrSpace.toNat)])
  | .load dest ty address align =>
      .tagged "Load" (.object
        [("dest", .nat dest), ("ty", ty.toJson), ("address", address.toJson),
          ("align", .nat align.toNat)])
  | .store value address align =>
      .tagged "Store" (.object
        [("value", value.toJson), ("address", address.toJson), ("align", .nat align.toNat)])
  | .elementPtr dest source base indices inbounds =>
      .tagged "ElementPtr" (.object
        [("dest", .nat dest), ("source", source.toJson), ("base", base.toJson),
          ("indices", .arr (indices.map Operand.toJson)), ("inbounds", .bool inbounds)])
  | .binary op dest ty lhs rhs =>
      .tagged "Binary" (.object
        [("op", op.toJson), ("dest", .nat dest), ("ty", ty.toJson), ("lhs", lhs.toJson),
          ("rhs", rhs.toJson)])
  | .compare predicate dest lhs rhs =>
      .tagged "Compare" (.object
        [("predicate", predicate.toJson), ("dest", .nat dest), ("lhs", lhs.toJson),
          ("rhs", rhs.toJson)])
  | .cast op dest value ty =>
      .tagged "Cast" (.object
        [("op", op.toJson), ("dest", .nat dest), ("value", value.toJson), ("to", ty.toJson)])
  | .call dest returnType callee args =>
      .tagged "Call" (.object
        [("dest", .optional (dest.map .nat)), ("ret_ty", returnType.toJson),
          ("callee", callee.toJson), ("args", .arr (args.map Operand.toJson))])
  | .phi dest ty incoming =>
      .tagged "Phi" (.object
        [("dest", .nat dest), ("ty", ty.toJson),
          ("incoming", .arr (incoming.map incomingToJson))])

/-- The fields of the operation with the given name. -/
def ofFields? (levels : Nat) (content : Json) : String → Option Operation
  | "Alloca" => do
      let record ← Record.ofJson? ["dest", "ty", "align", "addr_space"] content
      let dest ← record.required "dest" (Json.Decode.index levels)
      let ty ← record.required "ty" (Ty.decode levels)
      let align ← record.required "align" (Json.Decode.word64 levels)
      let addrSpace ← record.required "addr_space" (Json.Decode.word32 levels)
      return .alloca dest ty align addrSpace
  | "Load" => do
      let record ← Record.ofJson? ["dest", "ty", "address", "align"] content
      let dest ← record.required "dest" (Json.Decode.index levels)
      let ty ← record.required "ty" (Ty.decode levels)
      let address ← record.required "address" (Operand.decode levels)
      let align ← record.required "align" (Json.Decode.word64 levels)
      return .load dest ty address align
  | "Store" => do
      let record ← Record.ofJson? ["value", "address", "align"] content
      let value ← record.required "value" (Operand.decode levels)
      let address ← record.required "address" (Operand.decode levels)
      let align ← record.required "align" (Json.Decode.word64 levels)
      return .store value address align
  | "ElementPtr" => do
      let record ← Record.ofJson? ["dest", "source", "base", "indices", "inbounds"] content
      let dest ← record.required "dest" (Json.Decode.index levels)
      let source ← record.required "source" (Ty.decode levels)
      let base ← record.required "base" (Operand.decode levels)
      let indices ← record.required "indices" (Json.Decode.list Operand.decode levels)
      let inbounds ← record.required "inbounds" (Json.Decode.bool levels)
      return .elementPtr dest source base indices inbounds
  | "Binary" => do
      let record ← Record.ofJson? ["op", "dest", "ty", "lhs", "rhs"] content
      let op ← record.required "op" (BinaryOp.decode levels)
      let dest ← record.required "dest" (Json.Decode.index levels)
      let ty ← record.required "ty" (Ty.decode levels)
      let lhs ← record.required "lhs" (Operand.decode levels)
      let rhs ← record.required "rhs" (Operand.decode levels)
      return .binary op dest ty lhs rhs
  | "Compare" => do
      let record ← Record.ofJson? ["predicate", "dest", "lhs", "rhs"] content
      let predicate ← record.required "predicate" (Predicate.decode levels)
      let dest ← record.required "dest" (Json.Decode.index levels)
      let lhs ← record.required "lhs" (Operand.decode levels)
      let rhs ← record.required "rhs" (Operand.decode levels)
      return .compare predicate dest lhs rhs
  | "Cast" => do
      let record ← Record.ofJson? ["op", "dest", "value", "to"] content
      let op ← record.required "op" (CastOp.decode levels)
      let dest ← record.required "dest" (Json.Decode.index levels)
      let value ← record.required "value" (Operand.decode levels)
      let ty ← record.required "to" (Ty.decode levels)
      return .cast op dest value ty
  | "Call" => do
      let record ← Record.ofJson? ["dest", "ret_ty", "callee", "args"] content
      let dest ← record.nullable "dest" (Json.Decode.index levels)
      let returnType ← record.required "ret_ty" (Ty.decode levels)
      let callee ← record.required "callee" (Operand.decode levels)
      let args ← record.required "args" (Json.Decode.list Operand.decode levels)
      return .call dest returnType callee args
  | "Phi" => do
      let record ← Record.ofJson? ["dest", "ty", "incoming"] content
      let dest ← record.required "dest" (Json.Decode.index levels)
      let ty ← record.required "ty" (Ty.decode levels)
      let incoming ← record.required "incoming"
        (Json.Decode.list (Json.Decode.pair Operand.decode Json.Decode.index) levels)
      return .phi dest ty incoming
  | _ => none

def decode : Decoder Operation
  | levels + 2, .obj [(some name, content)] => ofFields? levels content name
  | _, _ => none

end Operation

namespace Instruction

def toJson (instruction : Instruction) : Json :=
  .object ([("kind", instruction.op.toJson)] ++
    Json.member? "comment" (instruction.comment.map .string))

def decode : Decoder Instruction
  | levels + 1, json => do
      let record ← Record.ofJson? ["kind", "comment"] json
      let op ← record.required "kind" (Operation.decode levels)
      let comment ← record.optional "comment" (Json.Decode.text levels)
      return { op, comment }
  | _, _ => none

end Instruction

end Monolith

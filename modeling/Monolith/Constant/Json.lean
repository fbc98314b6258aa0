import Monolith.Constant.Basic
import Monolith.Ty.Json

/-! # JSON form of constants -/

namespace Monolith

open Monolith.Json (Record Decoder)

namespace CastOp

def name : CastOp → String
  | .trunc => "Trunc"
  | .zext => "ZExt"
  | .sext => "SExt"
  | .ptrToInt => "PtrToInt"
  | .intToPtr => "IntToPtr"
  | .bitcast => "Bitcast"

def all : List CastOp := [.trunc, .zext, .sext, .ptrToInt, .intToPtr, .bitcast]

def toJson (op : CastOp) : Json := .string op.name

def decode : Decoder CastOp := Json.Decode.choice (all.map fun op => (op.name, op))

end CastOp

namespace Constant

mutual

def toJson : Constant → Json
  | .int ty value =>
      .tagged "Int" (.object [("ty", ty.toJson), ("value", .int value.toInt)])
  | .null => .string "Null"
  | .undef ty => .tagged "Undef" ty.toJson
  | .poison ty => .tagged "Poison" ty.toJson
  | .bytes data => .tagged "Bytes" (.arr (data.map fun byte => .nat byte.toNat))
  | .aggregate ty elements =>
      .tagged "Aggregate"
        (.object [("ty", ty.toJson), ("elements", .arr (listToJson elements))])
  | .global id => .tagged "Global" (.nat id)
  | .function id => .tagged "Function" (.nat id)
  | .elementPtr source base indices =>
      .tagged "Expr" (.tagged "ElementPtr" (.object
        [("source", source.toJson), ("base", base.toJson),
          ("indices", .arr (indices.map fun index => .int index.toInt))]))
  | .cast op value ty =>
      .tagged "Expr" (.tagged "Cast" (.object
        [("op", op.toJson), ("value", value.toJson), ("to", ty.toJson)]))

def listToJson : List Constant → List Json
  | [] => []
  | c :: rest => c.toJson :: listToJson rest

end

mutual

def decode : Decoder Constant
  | _, .str (some "Null") => some .null
  | _ + 1, .obj [(some "Null", .null)] => some .null
  | levels + 1, .obj [(some "Undef", ty)] => (Ty.decode levels ty).map .undef
  | levels + 1, .obj [(some "Poison", ty)] => (Ty.decode levels ty).map .poison
  | levels + 1, .obj [(some "Bytes", data)] =>
      (Json.Decode.list Json.Decode.byte levels data).map .bytes
  | levels + 1, .obj [(some "Global", id)] => (Json.Decode.index levels id).map .global
  | levels + 1, .obj [(some "Function", id)] => (Json.Decode.index levels id).map .function
  | levels + 2, .obj [(some "Int", content)] => do
      let record ← Record.ofJson? ["ty", "value"] content
      let ty ← record.required "ty" (Ty.decode levels)
      let value ← record.required "value" (Json.Decode.signed64 levels)
      return .int ty value
  | levels + 2, .obj [(some "Aggregate", content)] => do
      let record ← Record.ofJson? ["ty", "elements"] content
      let ty ← record.required "ty" (Ty.decode levels)
      let elements ← record.required "elements" (decodeList levels)
      return .aggregate ty elements
  | levels + 3, .obj [(some "Expr", .obj [(some "ElementPtr", content)])] => do
      let record ← Record.ofJson? ["source", "base", "indices"] content
      let source ← record.required "source" (Ty.decode levels)
      let base ← record.required "base" (decode levels)
      let indices ← record.required "indices" (Json.Decode.list Json.Decode.signed64 levels)
      return .elementPtr source base indices
  | levels + 3, .obj [(some "Expr", .obj [(some "Cast", content)])] => do
      let record ← Record.ofJson? ["op", "value", "to"] content
      let op ← record.required "op" (CastOp.decode levels)
      let value ← record.required "value" (decode levels)
      let ty ← record.required "to" (Ty.decode levels)
      return .cast op value ty
  | _, _ => none

def decodeList : Decoder (List Constant)
  | levels + 1, .arr items => items.mapM (decode levels)
  | _, _ => none

end

end Constant

end Monolith

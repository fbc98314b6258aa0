import Monolith.Json.Decode
import Monolith.Ty.Basic

/-! # JSON form of types -/

namespace Monolith.Ty

open Monolith.Json (Record Decoder)

mutual

def toJson : Ty → Json
  | .void => .string "Void"
  | .int bits => .tagged "Int" (.nat bits.toNat)
  | .ptr => .string "Ptr"
  | .array element len =>
      .tagged "Array" (.object [("element", element.toJson), ("len", .nat len.toNat)])
  | .struct fields packed =>
      .tagged "Struct" (.object [("fields", .arr (listToJson fields)), ("packed", .bool packed)])

def listToJson : List Ty → List Json
  | [] => []
  | t :: rest => t.toJson :: listToJson rest

end

mutual

def decode : Decoder Ty
  | _, .str (some "Void") => some .void
  | _, .str (some "Ptr") => some .ptr
  | _ + 1, .obj [(some "Void", .null)] => some .void
  | _ + 1, .obj [(some "Ptr", .null)] => some .ptr
  | levels + 1, .obj [(some "Int", bits)] => (Json.Decode.word32 levels bits).map .int
  | levels + 2, .obj [(some "Array", content)] => do
      let record ← Record.ofJson? ["element", "len"] content
      let element ← record.required "element" (decode levels)
      let len ← record.required "len" (Json.Decode.word64 levels)
      return .array element len
  | levels + 2, .obj [(some "Struct", content)] => do
      let record ← Record.ofJson? ["fields", "packed"] content
      let fields ← record.required "fields" (decodeList levels)
      let packed ← record.required "packed" (Json.Decode.bool levels)
      return .struct fields packed
  | _, _ => none

def decodeList : Decoder (List Ty)
  | levels + 1, .arr items => items.mapM (decode levels)
  | _, _ => none

end

end Monolith.Ty

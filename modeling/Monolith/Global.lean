import Monolith.Function.Json
import Monolith.Function.Text

/-! # Global variables -/

namespace Monolith

structure Global where
  name : String
  valueType : Ty
  initializer : Option Constant := none
  align : Option UInt64 := none
  addrSpace : UInt32 := 0
  linkage : Linkage := .internal
  isConstant : Bool := false
  deriving DecidableEq, Inhabited

namespace Global

/-- The alignment that is asked for, or else that of the value's type. -/
def alignment (g : Global) : UInt64 := g.align.getD g.valueType.alignWord

/-- The line of a global, not ended. -/
def line (g : Global) (level : Nat) : String :=
  let space :=
    if g.addrSpace = 0 then "" else "addrspace(" ++ toString g.addrSpace.toNat ++ ") "
  let kind := if g.isConstant then "constant " else "global "
  let value :=
    match g.initializer with
    | some initializer => initializer.text
    | none => g.valueType.text ++ " external"
  indentation level ++ "@" ++ g.name ++ " = " ++ g.linkage.text ++ space ++ kind ++ value ++
    alignText g.alignment

def text (g : Global) (level : Nat) : Except Fault String := do
  checkLevel level
  return g.line level

open Monolith.Json (Record Decoder)

def toJson (g : Global) : Json :=
  .object ([("name", .string g.name), ("value_type", g.valueType.toJson)] ++
    Json.member? "initializer" (g.initializer.map Constant.toJson) ++
    Json.member? "align" (g.align.map fun align => .nat align.toNat) ++
    [("addr_space", .nat g.addrSpace.toNat), ("linkage", g.linkage.toJson),
      ("is_constant", .bool g.isConstant)])

def keys : List String :=
  ["name", "value_type", "initializer", "align", "addr_space", "linkage", "is_constant"]

def decode : Decoder Global
  | levels + 1, json => do
      let record ← Record.ofJson? keys json
      let name ← record.required "name" (Json.Decode.text levels)
      let valueType ← record.required "value_type" (Ty.decode levels)
      let initializer ← record.optional "initializer" (Constant.decode levels)
      let align ← record.optional "align" (Json.Decode.word64 levels)
      let addrSpace ← record.withDefault "addr_space" 0 (Json.Decode.word32 levels)
      let linkage ← record.withDefault "linkage" .external (Linkage.decode levels)
      let isConstant ← record.withDefault "is_constant" false (Json.Decode.bool levels)
      return { name, valueType, initializer, align, addrSpace, linkage, isConstant }
  | _, _ => none

end Global

end Monolith

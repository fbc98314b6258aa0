import Monolith.Function.Basic

/-! # JSON form of functions -/

namespace Monolith

open Monolith.Json (Record Decoder)

namespace Linkage

def toJson : Linkage → Json
  | .external => .string "External"
  | .internal => .string "Internal"

def decode : Decoder Linkage :=
  Json.Decode.choice [("External", .external), ("Internal", .internal)]

end Linkage

namespace Attributes

def toJson (attributes : Attributes) : Json :=
  .object [("no_inline", .bool attributes.noInline),
    ("optimize_none", .bool attributes.optimizeNone),
    ("always_inline", .bool attributes.alwaysInline)]

def decode : Decoder Attributes
  | levels + 1, json => do
      let record ← Record.ofJson? ["no_inline", "optimize_none", "always_inline"] json
      let noInline ← record.withDefault "no_inline" false (Json.Decode.bool levels)
      let optimizeNone ← record.withDefault "optimize_none" false (Json.Decode.bool levels)
      let alwaysInline ← record.withDefault "always_inline" false (Json.Decode.bool levels)
      return { noInline, optimizeNone, alwaysInline }
  | _, _ => none

end Attributes

namespace ValueInfo

def toJson (info : ValueInfo) : Json :=
  .object ([("ty", info.ty.toJson)] ++ Json.member? "name" (info.name.map .string))

def decode : Decoder ValueInfo
  | levels + 1, json => do
      let record ← Record.ofJson? ["ty", "name"] json
      let ty ← record.required "ty" (Ty.decode levels)
      let name ← record.optional "name" (Json.Decode.text levels)
      return { ty, name }
  | _, _ => none

end ValueInfo

namespace Function

def keys : List String :=
  ["name", "linkage", "attributes", "return_type", "parameters", "is_var_arg",
    "basic_blocks", "entry_block", "values"]

def toJson (f : Function) : Json :=
  .object [("name", .string f.name), ("linkage", f.linkage.toJson),
    ("attributes", f.attributes.toJson), ("return_type", f.returnType.toJson),
    ("parameters", .arr (f.parameters.map .nat)), ("is_var_arg", .bool f.isVarArg),
    ("basic_blocks", .arr (f.blocks.map Block.toJson)), ("entry_block", .nat f.entry),
    ("values", .arr (f.values.map ValueInfo.toJson))]

def decode : Decoder Function
  | levels + 1, json => do
      let record ← Record.ofJson? keys json
      let name ← record.required "name" (Json.Decode.text levels)
      let linkage ← record.withDefault "linkage" .external (Linkage.decode levels)
      let attributes ← record.withDefault "attributes" {} (Attributes.decode levels)
      let returnType ← record.required "return_type" (Ty.decode levels)
      let parameters ← record.required "parameters"
        (Json.Decode.list Json.Decode.index levels)
      let isVarArg ← record.withDefault "is_var_arg" false (Json.Decode.bool levels)
      let blocks ← record.required "basic_blocks" (Json.Decode.list Block.decode levels)
      let entry ← record.required "entry_block" (Json.Decode.index levels)
      let values ← record.required "values" (Json.Decode.list ValueInfo.decode levels)
      return { name, linkage, attributes, returnType, parameters, isVarArg,
               blocks, entry, values }
  | _, _ => none

end Function

end Monolith

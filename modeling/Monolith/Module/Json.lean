import Monolith.Json.Reader
import Monolith.Json.Writer
import Monolith.Module.Basic

/-! # JSON form of modules

The name tables are not written; they are made anew when a module is read.
-/

namespace Monolith.Module

open Monolith.Json (Record Decoder)

def toJson (m : Module) : Json :=
  .object ([("name", .string m.name),
      ("functions", .arr (m.functions.map fun slot => .optional (slot.map Function.toJson))),
      ("globals", .arr (m.globals.map fun slot => .optional (slot.map Global.toJson)))] ++
    Json.member? "entry" (m.entry.map .nat))

def decode : Decoder Module
  | levels + 1, json => do
      let record ← Record.ofJson? ["name", "functions", "globals", "entry"] json
      let name ← record.required "name" (Json.Decode.text levels)
      let functions ← record.required "functions"
        (Json.Decode.list (Json.Decode.nullable Function.decode) levels)
      let globals ← record.required "globals"
        (Json.Decode.list (Json.Decode.nullable Global.decode) levels)
      let entry ← record.optional "entry" (Json.Decode.index levels)
      return rebuildNames { name, functions, globals, entry }
  | _, _ => none

/-- Reads the text of a module. -/
def read? (text : String) : Option Module :=
  (Json.read? text).bind (decode Json.nestingLimit)

end Monolith.Module

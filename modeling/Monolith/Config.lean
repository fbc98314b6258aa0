import Monolith.Json.Reader
import Monolith.Library
import Monolith.Module.Basic

/-! # Configuration

The configuration names the root and the library routines, and says how much is
logged. Without a name, the root is the designated entry of the module, or else
the function `main`.
-/

namespace Monolith

structure LibraryConfig where
  useStandardRoutines : Bool := true
  extraRoutines : List String := []
  deriving DecidableEq, Inhabited

/-- How much of what a run does is logged. Each level includes those before it. -/
inductive LogLevel where
  | off
  | error
  | warn
  | info
  | debug
  /-- The text of each function that is erased is logged too. -/
  | trace
  deriving DecidableEq, Inhabited

structure Config where
  root : Option String := none
  library : LibraryConfig := {}
  /-- The level is set for a run and not read from a file. -/
  logLevel : LogLevel := .off
  deriving DecidableEq, Inhabited

namespace LibraryConfig

def table (config : LibraryConfig) : Library where
  routines := if config.useStandardRoutines then Routine.standard else []
  names := config.extraRoutines

open Monolith.Json (Record Decoder)

def toJson (config : LibraryConfig) : Json :=
  .object [("use_standard_routines", .bool config.useStandardRoutines),
    ("extra_routines", .arr (config.extraRoutines.map .string))]

def decode : Decoder LibraryConfig
  | levels + 1, json => do
      let record ← Record.closed? ["use_standard_routines", "extra_routines"] json
      let useStandardRoutines ←
        record.withDefault "use_standard_routines" true (Json.Decode.bool levels)
      let extraRoutines ←
        record.withDefault "extra_routines" [] (Json.Decode.list Json.Decode.text levels)
      return { useStandardRoutines, extraRoutines }
  | _, _ => none

end LibraryConfig

namespace Config

def defaultRoot : String := "main"

/-- A root that is given takes the place of the configured one. -/
def withRoot (config : Config) (root : Option String) : Config :=
  { config with root := root.or config.root }

/-- The name that the root is looked for under. -/
def rootName (config : Config) (m : Module) : String :=
  config.root.getD (((m.entry.bind m.function?).map Function.name).getD defaultRoot)

def resolveRoot (config : Config) (m : Module) : Option FunctionId :=
  match config.root with
  | some name => m.lookupFunction name
  | none => (m.entry.filter fun id => (m.function? id).isSome).or (m.lookupFunction defaultRoot)

open Monolith.Json (Record Decoder)

def toJson (config : Config) : Json :=
  .object [("root", .optional (config.root.map .string)), ("library", config.library.toJson)]

def decode : Decoder Config
  | levels + 1, json => do
      let record ← Record.closed? ["root", "library"] json
      let root ← record.optional "root" (Json.Decode.text levels)
      let library ← record.withDefault "library" {} (LibraryConfig.decode levels)
      return { root, library }
  | _, _ => none

/-- Reads the text of a configuration. -/
def read? (text : String) : Option Config :=
  (Json.read? text).bind (decode Json.nestingLimit)

end Config

end Monolith

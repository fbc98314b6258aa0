import Monolith.CommandLine.Directory
import Monolith.CommandLine.Options
import Monolith.Module.Json
import Monolith.Pipeline

/-! # Running the command

The configuration is read before the module, and nothing is written unless the
module has been flattened and rendered.
-/

namespace Monolith.CommandLine

inductive Problem where
  | configUnreadable (path : String) (error : FileError)
  | configInvalid (path : String)
  | inputUnreadable (path : String) (error : FileError)
  | inputInvalid (path : String)
  | notFlattened (failure : Failure)
  | outputUnwritable (path : String) (error : FileError)
  /-- The result has no text. -/
  | notRendered (fault : Fault)
  deriving DecidableEq

namespace Problem

/-- A problem is told together with its cause. -/
def message : Problem → String
  | .configUnreadable path error =>
      "failed to read config file " ++ path ++ ": " ++ error.message ++ ": " ++ error.message
  | .configInvalid path => "invalid config file " ++ path
  | .inputUnreadable path error =>
      "Error reading file '" ++ path ++ "': " ++ error.message
  | .inputInvalid path => "Failed to parse module '" ++ path ++ "'"
  | .notFlattened (.rejected reason) => "Flattening failed: " ++ reason.message
  | .notFlattened (.fault _) => "Flattening failed: internal error"
  | .notFlattened .budgetExhausted => "Flattening failed: inlining does not end"
  | .outputUnwritable path error =>
      "Error writing file '" ++ path ++ "': " ++ error.message
  | .notRendered _ => "internal error"

end Problem

/-- The contents of a file. -/
abbrev ReadFile := String → Except FileError String

/-- The level that is logged at, unless the environment asks for another. -/
def Options.logLevel (options : Options) : LogLevel := if options.verbose then .debug else .info

def loadConfig (read : ReadFile) (options : Options) : Except Problem Config := do
  let config ← match options.config with
    | none => pure {}
    | some path =>
        let text ← (read path).mapError (.configUnreadable path)
        match Config.read? text with
        | some config => pure config
        | none => throw (.configInvalid path)
  return { config.withRoot options.root with logLevel := options.logLevel }

def loadModule (read : ReadFile) (path : String) : Except Problem Module := do
  let text ← (read path).mapError (.inputUnreadable path)
  match Module.read? text with
  | some m => return m
  | none => throw (.inputInvalid path)

def render (m : Module) : Format → Except Problem String
  | .json => .ok m.toJson.pretty
  | .ir => m.text.mapError .notRendered

/-- The number of calls that are inlined before the command gives up. -/
def budget : Nat := 1 <<< 32

/-- Flattens the module of the input file and renders it. -/
def run (read : ReadFile) (options : Options) : Except Problem (Report × String) := do
  let config ← loadConfig read options
  let m ← loadModule read options.input
  let (result, flattened) := m.flatten config budget
  let report ← result.mapError .notFlattened
  return (report, ← render flattened options.format)

/-- Runs the command in a directory. The result is the report, the rendered module
and the directory afterwards, which is unchanged if no output file is named. -/
def Directory.run (dir : Directory) (options : Options) :
    Except Problem (Report × String × Directory) := do
  let (report, text) ← CommandLine.run dir.read options
  match options.output with
  | none => return (report, text, dir)
  | some path =>
      let after ← (dir.write path text).mapError (.outputUnwritable path)
      return (report, text, after)

end Monolith.CommandLine

import Monolith.CommandLine.Run

/-! # The command

Reads the files that the arguments name, and writes the result to the output
file or to standard output.
-/

namespace Monolith.CommandLine

/-- The number of a system error, which may have been reported as its negation. -/
def errorNumber (code : UInt32) : UInt32 := min code (0 - code)

/-- What the operating system reports, as the command tells it. -/
def fileError : IO.Error → FileError
  | .noFileOrDirectory .. => .notFound
  | .permissionDenied .. => .permissionDenied
  | .inappropriateType _ code _ =>
      if errorNumber code = 20 then .notDirectory else .isDirectory
  | .invalidArgument _ code text =>
      if errorNumber code = 36 then .nameTooLong else .other text
  | error => .other error.toString

def readFile (path : String) : IO (Except FileError String) := do
  match ← (IO.FS.readBinFile path).toBaseIO with
  | .error error => return .error (fileError error)
  | .ok bytes =>
      match String.fromUTF8? bytes with
      | some text => return .ok text
      | none => return .error .notText

def writeFile (path text : String) : IO (Except FileError Unit) := do
  match ← (IO.FS.writeFile path text).toBaseIO with
  | .error error => return .error (fileError error)
  | .ok () => return .ok ()

/-- Tells the problem, and shows a result that has defects. -/
def complain (problem : Problem) : IO UInt32 := do
  IO.eprintln ("Error: " ++ problem.message)
  match problem with
  | .notFlattened (.rejected (.malformedModule _ dump)) =>
      IO.eprintln ("\n=== Malformed module ===\n" ++ dump)
  | _ => pure ()
  return 1

end Monolith.CommandLine

open Monolith.CommandLine in
/-- Exits with 0 on success, 1 if there is a problem, 2 if the arguments are wrong. -/
def main (args : List String) : IO UInt32 := do
  match Options.parse? args with
  | none =>
      IO.eprintln ("usage: monolith [-o FILE] [--emit json|ir] [--root NAME] " ++
        "[-c FILE] [-v] INPUT")
      return 2
  | some options =>
      let paths := options.config.toList ++ [options.input]
      let files ← paths.mapM fun path => return (path, ← readFile path)
      let read := fun path => (files.lookup path).getD (.error .notFound)
      match run read options with
      | .error problem => complain problem
      | .ok (_, text) =>
          match options.output with
          | none =>
              IO.println text
              return 0
          | some path =>
              match ← writeFile path text with
              | .ok () => return 0
              | .error error => complain (.outputUnwritable path error)

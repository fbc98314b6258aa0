/-! # Options of the command line

One file is read. An option is given at most once; its value is attached to it
or is the next argument, which then may not look like an option. After two
dashes every argument is a file.
-/

namespace Monolith.CommandLine

inductive Format where
  | json
  | ir
  deriving DecidableEq, Repr

structure Options where
  input : String
  output : Option String := none
  format : Format := .json
  root : Option String := none
  config : Option String := none
  verbose : Bool := false
  deriving DecidableEq, Repr

/-- The options that have a value. -/
inductive Setting where
  | output
  | emit
  | root
  | config
  deriving DecidableEq, Repr

/-- What has been given so far. -/
structure Given where
  input : Option String := none
  output : Option String := none
  format : Option Format := none
  root : Option String := none
  config : Option String := none
  verbose : Bool := false

def Format.ofName? : String → Option Format
  | "json" => some .json
  | "ir" => some .ir
  | _ => none

namespace Given

/-- A path is not empty. -/
def path? (value : String) : Option String := if value.isEmpty then none else some value

def addInput (given : Given) (value : String) : Option Given := do
  if given.input.isSome then none
  else return { given with input := some (← path? value) }

def addVerbose (given : Given) : Option Given :=
  if given.verbose then none else some { given with verbose := true }

def add (given : Given) (value : String) : Setting → Option Given
  | .output => do
      if given.output.isSome then none
      else return { given with output := some (← path? value) }
  | .emit => do
      if given.format.isSome then none
      else return { given with format := some (← Format.ofName? value) }
  | .root => if given.root.isSome then none else some { given with root := some value }
  | .config => do
      if given.config.isSome then none
      else return { given with config := some (← path? value) }

def options? (given : Given) : Option Options := do
  return {
    input := ← given.input
    output := given.output
    format := given.format.getD .json
    root := given.root
    config := given.config
    verbose := given.verbose }

end Given

/-- Whether an argument looks like an option. A single dash does not. -/
def isOptionLike (arg : String) : Bool := arg.startsWith "-" && arg ≠ "-"

def longSetting? : String → Option Setting
  | "output" => some .output
  | "emit" => some .emit
  | "root" => some .root
  | "config" => some .config
  | _ => none

def shortSetting? : Char → Option Setting
  | 'o' => some .output
  | 'c' => some .config
  | _ => none

/-- The name of a long option and the value that is attached to it. -/
def splitLong (cs : List Char) : String × Option String :=
  let name := String.ofList (cs.takeWhile (· ≠ '='))
  match cs.dropWhile (· ≠ '=') with
  | [] => (name, none)
  | _ :: value => (name, some (String.ofList value))

/-- The value that is attached to a short option; a leading equals sign is no part of it. -/
def attachedValue : List Char → Option String
  | [] => none
  | '=' :: value => some (String.ofList value)
  | value => some (String.ofList value)

/-- Reads short options that are written together. Only the last may have a value;
if it is not attached, the option still waits for it. -/
def addShort (given : Given) : List Char → Option (Given × Option Setting)
  | [] => some (given, none)
  | 'v' :: rest => do addShort (← given.addVerbose) rest
  | c :: rest => do
      let setting ← shortSetting? c
      match attachedValue rest with
      | some value => return (← given.add value setting, none)
      | none => return (given, some setting)

def addLong (given : Given) (cs : List Char) : Option (Given × Option Setting) :=
  match splitLong cs with
  | ("verbose", none) => do return (← given.addVerbose, none)
  | (name, some value) => do return (← given.add value (← longSetting? name), none)
  | (name, none) => do return (given, some (← longSetting? name))

/-- Reads an argument that looks like an option. -/
def addOption (given : Given) (arg : String) : Option (Given × Option Setting) :=
  match arg.toList with
  | '-' :: '-' :: rest => addLong given rest
  | '-' :: rest => addShort given rest
  | _ => none

/-- Reads the arguments. `waiting` is an option whose value is next. -/
def addAll (given : Given) (waiting : Option Setting) : List String → Option Given
  | [] => if waiting.isSome then none else some given
  | arg :: rest =>
      match waiting with
      | some setting =>
          if isOptionLike arg then none
          else do addAll (← given.add arg setting) none rest
      | none =>
          if arg = "--" then rest.foldlM Given.addInput given
          else if isOptionLike arg then do
            let (given, waiting) ← addOption given arg
            addAll given waiting rest
          else do addAll (← given.addInput arg) none rest

/-- The options that the arguments give, if they are right. -/
def Options.parse? (args : List String) : Option Options :=
  (addAll {} none args).bind Given.options?

end Monolith.CommandLine

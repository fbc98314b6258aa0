import Monolith.Function.Basic

/-! # Text of functions

A function whose parameters are not all recorded among its values has no text,
and nothing has one at a level whose blanks alone are too many.
-/

namespace Monolith

/-- Two blanks a level. -/
def indentation (level : Nat) : String := String.ofList (List.replicate (2 * level) ' ')

/-- A text has less than `2 ^ 63` bytes, which bounds the level. -/
def checkLevel (level : Nat) : Except Fault Unit :=
  if 2 * level < 1 <<< 63 then .ok () else .error .overflow

/-- What stands before the type or name of an entity of the given linkage. -/
def Linkage.text : Linkage → String
  | .external => ""
  | .internal => "internal "

namespace Function

/-- The parameters with their types, and dots if more arguments may follow. -/
def parametersText (f : Function) : Except Fault String := do
  let parameters ← f.parameters.mapM fun id => do
    return (← entryAt f.values id).ty.text ++ " %" ++ toString id
  return ", ".intercalate (parameters ++ if f.isVarArg then ["..."] else [])

/-- The comment that gives the names of the parameters that have one. -/
def parameterNamesText (f : Function) : String :=
  let names := f.parameters.filterMap fun id =>
    (f.valueName? id).map fun name => "%" ++ toString id ++ " = " ++ name
  if names.isEmpty then "" else " ; " ++ ", ".intercalate names

/-- The line of an instruction. Without a comment of its own it shows the name of
its result. -/
def instructionText (f : Function) (instruction : Instruction) : String :=
  match instruction.comment, instruction.op.dest?.bind f.valueName? with
  | none, some name => instruction.text ++ " ; " ++ name
  | _, _ => instruction.text

def labelText (block : Block) (id : BlockId) : String :=
  match block.name with
  | some name => blockText id ++ ": ; " ++ name
  | none => blockText id ++ ":"

def blockLines (f : Function) (level : Nat) (block : Block) (id : BlockId) : List String :=
  [indentation level ++ labelText block id] ++
    block.instructions.map (fun i => indentation (level + 1) ++ f.instructionText i) ++
    [indentation (level + 1) ++ block.terminator.text]

def lines (f : Function) (level : Nat) : Except Fault (List String) := do
  let signature := f.linkage.text ++ f.returnType.text ++ " @" ++ f.name ++ "(" ++
    (← f.parametersText) ++ ")"
  if f.isDeclaration then return [indentation level ++ "declare " ++ signature]
  else
    return [indentation level ++ "define " ++ signature ++ " \x7b" ++ f.parameterNamesText] ++
      f.blocks.zipIdx.flatMap (fun (block, id) => f.blockLines level block id) ++
      [indentation level ++ "\x7d"]

end Function

/-- Lines, each ended. -/
def linesText (lines : List String) : String := String.join (lines.map (· ++ "\n"))

def Function.text (f : Function) (level : Nat) : Except Fault String := do
  checkLevel level
  return linesText (← f.lines level)

end Monolith

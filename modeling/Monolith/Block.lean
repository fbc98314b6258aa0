import Monolith.Instruction.Json
import Monolith.Terminator

/-! # Blocks

A block runs its instructions in order and ends with its terminator. Phis
stand at its head.
-/

namespace Monolith

structure Block where
  name : Option String := none
  instructions : List Instruction := []
  terminator : Terminator := .unreachable
  deriving DecidableEq, Inhabited

namespace Block

/-- The operands of the instructions in order, then those of the terminator. -/
def operands (block : Block) : List Operand :=
  block.instructions.flatMap (·.op.operands) ++ block.terminator.operands

def mapOperands (f : Operand → Operand) (block : Block) : Block :=
  { block with
    instructions := block.instructions.map (·.mapOperands f)
    terminator := block.terminator.mapOperands f }

def mapInstructions (f : List Instruction → List Instruction) (block : Block) : Block :=
  { block with instructions := f block.instructions }

/-- The position of the first instruction that is no phi, the end if there is none. -/
def headSize (block : Block) : Nat := block.instructions.findIdx fun i => !i.op.isPhi

/-- The position of the first instruction that is neither a phi nor an alloca,
the end if there is none. -/
def preambleSize (block : Block) : Nat :=
  block.instructions.findIdx fun i => !i.op.isPhi && !i.op.isAlloca

/-- The variables that are read, in order. -/
def uses (block : Block) : List ValueId :=
  block.instructions.flatMap (·.op.uses) ++ block.terminator.uses

/-- The variables that are defined, in order. -/
def defs (block : Block) : List ValueId := block.instructions.filterMap (·.op.dest?)

open Monolith.Json (Record Decoder)

def toJson (block : Block) : Json :=
  .object (Json.member? "name" (block.name.map .string) ++
    [("instructions", .arr (block.instructions.map Instruction.toJson)),
      ("terminator", block.terminator.toJson)])

def decode : Decoder Block
  | levels + 1, json => do
      let record ← Record.ofJson? ["name", "instructions", "terminator"] json
      let name ← record.optional "name" (Json.Decode.text levels)
      let instructions ← record.required "instructions"
        (Json.Decode.list Instruction.decode levels)
      let terminator ← record.required "terminator" (Terminator.decode levels)
      return { name, instructions, terminator }
  | _, _ => none

end Block

end Monolith

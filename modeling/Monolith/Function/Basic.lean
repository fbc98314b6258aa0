import Monolith.Block
import Monolith.Fault
import Monolith.Ty.Layout

/-! # Functions

A function owns its blocks and its variables; both are named by their positions.
A function without blocks is a declaration. Every variable has a recorded type,
but nothing here requires that what an instruction names is recorded.
-/

namespace Monolith

inductive Linkage where
  | external
  | internal
  deriving DecidableEq, Repr, Inhabited

structure Attributes where
  noInline : Bool := false
  optimizeNone : Bool := false
  alwaysInline : Bool := false
  deriving DecidableEq, Inhabited

structure ValueInfo where
  ty : Ty
  name : Option String := none
  deriving DecidableEq, Inhabited

structure Function where
  name : String
  linkage : Linkage := .external
  attributes : Attributes := {}
  returnType : Ty
  parameters : List ValueId := []
  isVarArg : Bool := false
  blocks : List Block
  entry : BlockId := 0
  values : List ValueInfo := []
  deriving DecidableEq, Inhabited

namespace Function

/-- A function with an empty entry block. -/
def define (name : String) (returnType : Ty) : Function :=
  { name, returnType, blocks := [{ name := some "entry" }] }

def isDeclaration (f : Function) : Bool := f.blocks.isEmpty

/-- Records a new variable. -/
def addValue (f : Function) (ty : Ty) (name : Option String := none) : Function × ValueId :=
  ({ f with values := f.values ++ [{ ty, name }] }, f.values.length)

def addParameter (f : Function) (ty : Ty) (name : Option String := none) :
    Function × ValueId :=
  let (f, id) := f.addValue ty name
  ({ f with parameters := f.parameters ++ [id] }, id)

def declare (name : String) (returnType : Ty) (parameterTypes : List Ty) (isVarArg : Bool) :
    Function :=
  parameterTypes.foldl (fun f ty => (f.addParameter ty).1)
    { name, returnType, isVarArg, blocks := [] }

/-- Adds a block that ends in an unreachable point. -/
def addBlock (f : Function) (name : Option String := none) : Function × BlockId :=
  ({ f with blocks := f.blocks ++ [{ name }] }, f.blocks.length)

def block? (f : Function) (id : BlockId) : Option Block := f.blocks[id]?

def hasBlock (f : Function) (id : BlockId) : Bool := id < f.blocks.length

/-- The block, which has to exist. -/
def block (f : Function) (id : BlockId) : Except Fault Block := entryAt f.blocks id

/-- Changes a block, if it exists. -/
def mapBlock (f : Function) (id : BlockId) (g : Block → Block) : Function :=
  { f with blocks := f.blocks.modify id g }

/-- Changes a block, which has to exist. -/
def updateBlock (f : Function) (id : BlockId) (g : Block → Block) : Except Fault Function := do
  let _ ← f.block id
  return f.mapBlock id g

def setTerminator (f : Function) (id : BlockId) (terminator : Terminator) :
    Except Fault Function :=
  f.updateBlock id fun block => { block with terminator }

/-- Inserts an instruction before the one at `index`, or at the end of the block. -/
def insert (f : Function) (id : BlockId) (index : Nat) (instruction : Instruction) :
    Except Fault Function := do
  let block ← f.block id
  if index ≤ block.instructions.length then
    return f.mapBlock id (·.mapInstructions (·.insertIdx index instruction))
  else throw .outOfBounds

def valueType? (f : Function) (id : ValueId) : Option Ty := f.values[id]?.map ValueInfo.ty

def valueName? (f : Function) (id : ValueId) : Option String :=
  f.values[id]?.bind ValueInfo.name

def parameterTypes (f : Function) : Except Fault (List Ty) :=
  f.parameters.mapM fun id => return (← entryAt f.values id).ty

def operandType? (f : Function) : Operand → Option Ty
  | .var id => f.valueType? id
  | .const value => some value.ty

/-- All operands, block by block. -/
def operands (f : Function) : List Operand := f.blocks.flatMap Block.operands

def mapOperands (g : Operand → Operand) (f : Function) : Function :=
  { f with blocks := f.blocks.map (·.mapOperands g) }

/-- The number of operands that read the variable. -/
def varUses (f : Function) (id : ValueId) : Nat := f.operands.countP (· = .var id)

/-- Puts `replacement` in place of every read of the variable. -/
def replaceVar (f : Function) (id : ValueId) (replacement : Operand) : Function :=
  f.mapOperands (Operand.replaceVar id replacement)

/-- The variables that are read, in increasing order, each with the number of its reads. -/
def useCounts (f : Function) : List (ValueId × Nat) :=
  let reads := f.operands.filterMap Operand.var?
  (reads.eraseDups.mergeSort (· ≤ ·)).map fun id => (id, reads.count id)

/-- The places of the calls, in order. -/
def callSites (f : Function) : List (BlockId × Nat) :=
  f.blocks.zipIdx.flatMap fun (block, id) =>
    (block.instructions.zipIdx.filter (·.1.op.isCall)).map fun (_, index) => (id, index)

/-- What the calls of the function call, in order. -/
def callees (f : Function) : List Operand :=
  f.blocks.flatMap fun block => block.instructions.filterMap (·.op.callee?)

end Function

end Monolith

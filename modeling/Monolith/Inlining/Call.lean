import Monolith.Failure
import Monolith.Module.Basic

/-! # Inlining a call

The block of the call is split after it: the rest becomes a new block, where
control goes on when the body returns. The body is copied under a renaming of
its variables and blocks, its leading allocas are moved to the entry of the
caller, and the result of the call becomes what the body returns.
-/

namespace Monolith

/-- A direct call of a function with a body. -/
structure CallSite where
  dest : Option ValueId
  returnType : Ty
  callee : Function
  args : List Operand

/-- How the variables and blocks of a body are named in the caller. -/
structure Renaming where
  values : List (ValueId × Operand)
  /-- The first of the blocks that are added for the body. -/
  firstBlock : BlockId
  blockCount : Nat

namespace Renaming

def block (names : Renaming) (id : BlockId) : BlockId :=
  if id < names.blockCount then names.firstBlock + id else id

def operand (names : Renaming) : Operand → Operand
  | .var id => (names.values.lookup id).getD (.var id)
  | .const value => .const value

/-- A variable that stands for another variable is defined under its name. -/
def dest (names : Renaming) (id : ValueId) : ValueId :=
  match names.values.lookup id with
  | some (.var fresh) => fresh
  | _ => id

def instruction (names : Renaming) (i : Instruction) : Instruction :=
  ((i.mapOperands names.operand).mapDest names.dest).mapIncoming names.block

/-- A return becomes a jump to the block where control goes on. -/
def terminator (names : Renaming) (continuation : BlockId) : Terminator → Terminator
  | .ret _ => .jump continuation
  | t => (t.mapOperands names.operand).mapTargets names.block

end Renaming

namespace Function

/-- The variables of a body that are no parameters. -/
def innerValues (f : Function) : List (ValueInfo × ValueId) :=
  f.values.zipIdx.filter fun (_, id) => !f.parameters.contains id

/-- The call at the given place, if it is a direct call of a function with a body. -/
def callSite? (m : Module) (caller : Function) (block : BlockId) (index : Nat) :
    Option CallSite := do
  let instruction ← (← caller.block? block).instructions[index]?
  match instruction.op with
  | .call dest returnType target args =>
      let callee ← target.function?.bind m.function?
      if callee.isDeclaration then none else some { dest, returnType, callee, args }
  | _ => none

/-- Splits a block: it keeps what stands before the call, and what stands behind
it moves to a new block. Phis of the blocks that follow now list the new block. -/
def splitAt (f : Function) (block : BlockId) (index : Nat) (name : String) :
    Except Fault Function := do
  let head ← f.block block
  let continuation := f.blocks.length
  let tail : Block :=
    { name := some name
      instructions := head.instructions.drop (index + 1)
      terminator := head.terminator }
  let split := { f with
    blocks := f.blocks.modify block (fun head =>
      { head with
        instructions := head.instructions.take index
        terminator := .unreachable }) ++ [tail] }
  let rename := fun id => if id = block then continuation else id
  return tail.terminator.targets.foldl (fun f target =>
    f.mapBlock target (·.mapInstructions (·.map (·.mapIncoming rename)))) split

/-- The name of the copy of a block. -/
def copyName (f : Function) (block : Block) (id : BlockId) : String :=
  f.name ++ "." ++ block.name.getD (blockText id)

/-- The copies of the blocks of a body. -/
def copyBlocks (f : Function) (names : Renaming) (continuation : BlockId) : List Block :=
  f.blocks.zipIdx.map fun (block, id) =>
    { name := some (f.copyName block id)
      instructions := block.instructions.map names.instruction
      terminator := names.terminator continuation block.terminator }

/-- What the body returns, each with the copy of the block that returns it. -/
def returns (f : Function) (names : Renaming) : List (Operand × BlockId) :=
  f.blocks.zipIdx.filterMap fun (block, id) =>
    match block.terminator with
    | .ret (some value) => some (names.operand value, names.block id)
    | _ => none

/-- Moves the leading allocas of a block behind those of the entry. -/
def hoistAllocas (f : Function) (block : BlockId) : Except Fault Function := do
  let source ← f.block block
  let allocas := source.instructions.takeWhile (·.op.isAlloca)
  let f := f.mapBlock block (·.mapInstructions (·.drop allocas.length))
  let entry ← f.block f.entry
  let place := entry.preambleSize
  return f.mapBlock f.entry (·.mapInstructions fun instructions =>
    instructions.take place ++ allocas ++ instructions.drop place)

/-- Gives the result of the call its value: poison if nothing is returned, what is
returned at the one place that returns, or else a phi of all that is returned. -/
def bindResult (f : Function) (site : CallSite) (continuation : BlockId)
    (returned : List (Operand × BlockId)) : Function :=
  match site.dest, returned with
  | none, _ => f
  | some dest, [] => f.replaceVar dest (.poison site.returnType)
  | some dest, [(value, _)] => f.replaceVar dest value
  | some dest, returned =>
      f.mapBlock continuation (·.mapInstructions fun instructions =>
        { op := .phi dest site.returnType returned } :: instructions)

/-- Puts the body of the callee in place of the call. -/
def inlineBody (caller : Function) (site : CallSite) (block : BlockId) (index : Nat) :
    Except Fault Function := do
  let callee := site.callee
  let continuation := caller.blocks.length
  let split ← caller.splitAt block index (callee.name ++ ".exit")
  let inner := callee.innerValues
  let fresh := inner.zipIdx.map fun ((_, id), offset) =>
    (id, Operand.var (caller.values.length + offset))
  let names : Renaming :=
    { values := (callee.parameters.zip site.args).reverse ++ fresh
      firstBlock := continuation + 1
      blockCount := callee.blocks.length }
  let copied := { split with
    values := split.values ++ inner.map Prod.fst
    blocks := split.blocks ++ callee.copyBlocks names continuation }
  let start := names.block callee.entry
  let hoisted ← copied.hoistAllocas start
  let joined ← hoisted.setTerminator block (.jump start)
  return joined.bindResult site continuation (callee.returns names)

end Function

namespace Module

/-- Inlines the call at the given place. There is no result if no direct call of a
function with a body stands there. -/
def inlineCall (m : Module) (caller : FunctionId) (block : BlockId) (index : Nat) :
    Except Failure (Option Module) :=
  match m.function? caller with
  | none => .ok none
  | some f =>
      match Function.callSite? m f block index with
      | none => .ok none
      | some site =>
          let callee := site.callee
          if callee.isVarArg then reject (.varArgInline f.name callee.name)
          else if site.args.length ≠ callee.parameters.length then
            reject (.arityMismatch f.name callee.name callee.parameters.length
              site.args.length)
          else do
            let inlined ← faulting (f.inlineBody site block index)
            return some (m.setFunction caller inlined)

end Module

end Monolith

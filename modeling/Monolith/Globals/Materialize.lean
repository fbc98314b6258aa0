import Monolith.Failure
import Monolith.Globals.Draft
import Monolith.Module.Basic

/-! # Materializing constant expressions

A constant expression over a global that gets local storage is no constant any
more, so it is computed by instructions: before the instruction that reads it,
or, if that is a phi, at the end of the block that the operand is listed for.
-/

namespace Monolith

/-- The globals that get local storage in a function. -/
structure Localized where
  globals : List (GlobalId × Global)
  /-- The name of the function. -/
  function : String

namespace Localized

def tracks (scope : Localized) (id : GlobalId) : Bool := scope.globals.any fun (g, _) => g = id

def globalName (scope : Localized) (id : GlobalId) : String :=
  ((scope.globals.lookup id).map Global.name).getD ""

/-- Computes a constant expression that mentions a tracked global. -/
def materialize (scope : Localized) : Constant → StateM Draft Operand
  | .elementPtr source base indices => do
      if base.globals.any scope.tracks then
        let base ← materialize scope base
        let dest ← Draft.newValue .ptr
        Draft.emit (.elementPtr dest source base (indices.map Operand.i32) true)
        return .var dest
      else return .const (.elementPtr source base indices)
  | .cast op value ty => do
      if value.globals.any scope.tracks then
        let value ← materialize scope value
        let dest ← Draft.newValue ty
        Draft.emit (.cast op dest value ty)
        return .var dest
      else return .const (.cast op value ty)
  | c => return .const c

/-- Writing code. A failure leaves a `σ`. -/
abbrev Expansion (σ : Type) := StateT Draft (Except (Aborted σ))

/-- A part of the writing, with what a failure in it leaves of the whole. -/
def Expansion.within {σ τ α : Type} (whole : σ → τ) (x : Expansion σ α) : Expansion τ α :=
  fun draft => (x draft).mapError (.map whole)

/-- Puts a computed value in place of a constant expression. An aggregate that
mentions a tracked global cannot be computed; the variables that were recorded
before it stay. -/
def expandOperand (scope : Localized) : Operand → Expansion (List ValueInfo) Operand
  | .var id => return .var id
  | .const c =>
      match c.globals.find? scope.tracks with
      | none => return .const c
      | some id =>
          if c.isAggregate then do
            throw { failure := .rejected (.unsupportedConstantUse (scope.globalName id)
                      scope.function)
                    left := (← get).values }
          else modifyGet (scope.materialize c)

/-- Expands an operand of a phi. What computes it goes to the block it is listed for. -/
def expandIncoming (scope : Localized) (entry : Operand × BlockId) :
    Expansion (List ValueInfo) (Operand × BlockId) := do
  let outer := (← get).code
  modify fun draft => { draft with code := [] }
  let value ← scope.expandOperand entry.1
  modify fun draft =>
    { draft with
      code := outer
      edges := if draft.code.isEmpty then draft.edges else
        draft.edges ++ [(entry.2, draft.code)] }
  return (value, entry.2)

def expandOperation (scope : Localized) : Operation → Expansion (List ValueInfo) Operation
  | .phi dest ty incoming => return .phi dest ty (← incoming.mapM scope.expandIncoming)
  | op => op.mapOperandsM scope.expandOperand

def expandInstruction (scope : Localized) (i : Instruction) :
    Expansion (List ValueInfo) Unit := do
  let op ← scope.expandOperation i.op
  modify fun draft => { draft with code := draft.code ++ [{ i with op }] }

/-- Expands a block. The instructions are taken out of it first, and the terminator
after them, and they are put back when all are expanded. -/
def expandBlock (scope : Localized) (block : Block) :
    Expansion (Block × List ValueInfo) Block := do
  let emptied := { block with instructions := [] }
  modify fun draft => { draft with code := [] }
  (block.instructions.forM scope.expandInstruction).within (emptied, ·)
  let terminator ← (block.terminator.mapOperandsM scope.expandOperand).within
    ({ emptied with terminator := .unreachable }, ·)
  return { block with instructions := (← get).code, terminator }

def expandBlocks (scope : Localized) :
    List Block → Expansion (List Block × List ValueInfo) (List Block)
  | [] => return []
  | block :: rest => do
      let first ← (scope.expandBlock block).within fun (left, values) => (left :: rest, values)
      let others ← (scope.expandBlocks rest).within fun (left, values) => (first :: left, values)
      return first :: others

/-- Expands all blocks, then puts what belongs at the ends of blocks there. -/
def expandFunction (scope : Localized) (f : Function) :
    Except (Aborted Function) Function := do
  let (blocks, draft) ← ((scope.expandBlocks f.blocks).within fun (blocks, values) =>
    { f with blocks, values }).run { values := f.values }
  let expanded := { f with blocks, values := draft.values }
  leaving expanded (faulting (draft.edges.foldlM (fun f (block, code) =>
    f.updateBlock block (·.mapInstructions (· ++ code))) expanded))

end Localized

end Monolith

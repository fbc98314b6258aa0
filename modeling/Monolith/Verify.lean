import Monolith.Defect
import Monolith.Dominators
import Monolith.Worklist

/-! # Verifying modules

A module is well formed if no defect is found. Defects are listed by kind of
check: names first, then the designated entry, the globals, and the functions
one by one. A function whose entry or whose targets do not exist is not looked
at further.
-/

namespace Monolith

/-- Where a variable gets its value. -/
inductive Definition where
  | parameter
  | instruction (block : BlockId) (index : Nat)
  deriving DecidableEq, Repr

namespace Definition

/-- Whether the value is there when control is before the instruction at `index`. -/
def reaches (tree : DominatorTree) (block : BlockId) (index : Nat) : Definition → Bool
  | .parameter => true
  | .instruction defBlock defIndex =>
      if defBlock = block then defIndex < index else tree.dominates defBlock block

/-- Whether the value is there when control leaves the block. -/
def reachesEnd (tree : DominatorTree) (block : BlockId) : Definition → Bool
  | .parameter => true
  | .instruction defBlock _ => tree.dominates defBlock block

end Definition

namespace Function

/-- The variables in the order of their definitions: parameters, then results. -/
def definitions (f : Function) : List (ValueId × Definition) :=
  f.parameters.map (·, .parameter) ++
    f.blocks.zipIdx.flatMap fun (block, id) =>
      block.instructions.zipIdx.filterMap fun (instruction, index) =>
        instruction.op.dest?.map (·, .instruction id index)

/-- The last definition of a variable. -/
def definition? (f : Function) (id : ValueId) : Option Definition :=
  f.definitions.reverse.lookup id

def invalidTargets (f : Function) : List Defect :=
  f.blocks.zipIdx.flatMap fun (block, id) =>
    (block.terminator.targets.filter fun target => !f.hasBlock target).map
      (.invalidTarget f.name id)

/-- Whether both lists have the same members. -/
def sameMembers (as bs : List Nat) : Bool := as.all bs.contains && bs.all as.contains

def phiDefects (f : Function) (id : BlockId) (block : Block) : List Defect :=
  block.instructions.zipIdx.flatMap fun (instruction, index) =>
    match instruction.op with
    | .phi dest _ incoming =>
        (if (block.instructions.take index).all (·.op.isPhi) then [] else
          [.misplacedPhi f.name id]) ++
        (if sameMembers (incoming.map Prod.snd) (f.predecessors id) then [] else
          [.phiPredecessorMismatch f.name id dest])
    | _ => []

/-- A read of a variable, with the test that its definition has to pass. -/
def useDefects (f : Function) (block : BlockId) (reaches : Definition → Bool) (id : ValueId) :
    List Defect :=
  match f.definition? id with
  | none => [.undefinedValue f.name id]
  | some definition => if reaches definition then [] else [.useNotDominated f.name block id]

/-- Reads in code that is never reached only have to be of defined variables. -/
def blockUseDefects (f : Function) (tree : DominatorTree) (id : BlockId) (block : Block) :
    List Defect :=
  let readAt := fun index =>
    f.useDefects id fun definition => !tree.isReachable id || definition.reaches tree id index
  (block.instructions.zipIdx.flatMap fun (instruction, index) =>
    match instruction.op with
    | .phi _ _ incoming =>
        incoming.flatMap fun (value, source) =>
          value.var?.toList.flatMap
            (f.useDefects id fun definition =>
              !tree.isReachable source || definition.reachesEnd tree source)
    | op => op.uses.flatMap (readAt index)) ++
  block.terminator.uses.flatMap (readAt block.instructions.length)

def pointerDefects (f : Function) (block : BlockId) (address : Operand) : List Defect :=
  match f.operandType? address with
  | some ty => if ty.isPointer then [] else [.nonPointerAddress f.name block ty]
  | none => []

end Function

namespace Module

/-- The references of a constant to entities that are not in the module. -/
def referenceDefects (m : Module) (site : Site) (c : Constant) : List Defect :=
  c.nodes.filterMap fun
    | .global id => if (m.global? id).isSome then none else some (.erasedGlobal site id)
    | .function id => if (m.function? id).isSome then none else some (.erasedFunction site id)
    | _ => none

def operandDefects (m : Module) (site : Site) (operands : List Operand) : List Defect :=
  (operands.filterMap Operand.const?).flatMap (m.referenceDefects site)

def acceptsArity (callee : Function) (count : Nat) : Bool :=
  if callee.isVarArg then callee.parameters.length ≤ count
  else count = callee.parameters.length

def callDefects (m : Module) (f : Function) (block : BlockId) (callee : Operand)
    (count : Nat) : List Defect :=
  if callee.isPoison then [.poisonCallee f.name block]
  else
    match callee.function?.bind m.function? with
    | some g =>
        if acceptsArity g count then []
        else [.arityMismatch f.name g.name g.parameters.length count]
    | none => []

def operationDefects (m : Module) (f : Function) (block : BlockId) : Operation → List Defect
  | .load _ _ address _ => f.pointerDefects block address
  | .store _ address _ => f.pointerDefects block address
  | .elementPtr _ _ base _ _ => f.pointerDefects block base
  | .call _ _ callee args => m.callDefects f block callee args.length
  | _ => []

def blockDefects (m : Module) (f : Function) (id : BlockId) (block : Block) : List Defect :=
  let site := Site.block f.name id
  (block.instructions.flatMap fun instruction =>
    m.operandDefects site instruction.op.operands ++ m.operationDefects f id instruction.op) ++
  m.operandDefects site block.terminator.operands

/-- The defects of a function whose entry and targets exist. -/
def bodyDefects (m : Module) (f : Function) : List Defect :=
  let blocks := f.blocks.zipIdx
  let tree := f.dominatorTree
  (if (f.predecessors f.entry).isEmpty then [] else [.entryHasPredecessors f.name]) ++
  (blocks.flatMap fun (block, id) => f.phiDefects id block) ++
  (repeats (f.definitions.map Prod.fst)).map (.multipleDefinitions f.name) ++
  (blocks.flatMap fun (block, id) => f.blockUseDefects tree id block) ++
  (blocks.flatMap fun (block, id) => m.blockDefects f id block)

def functionDefects (m : Module) (f : Function) : List Defect :=
  if f.isDeclaration then []
  else if !f.hasBlock f.entry then [.missingEntryBlock f.name f.entry]
  else
    match f.invalidTargets with
    | [] => m.bodyDefects f
    | defects => defects

def globalDefects (m : Module) (g : Global) : List Defect :=
  match g.initializer with
  | none => []
  | some c =>
      m.referenceDefects (.initializer g.name) c ++
        (if c.ty = g.valueType then [] else
          [.initializerTypeMismatch g.name g.valueType c.ty])

/-- The table entries that name no entity, or one of another name, ordered by
their messages. -/
def staleNames (m : Module) : List Defect :=
  let functions := m.functionNames.entries.filter fun (name, id) =>
    (m.function? id).map Function.name ≠ some name
  let globals := m.globalNames.entries.filter fun (name, id) =>
    (m.global? id).map Global.name ≠ some name
  let stale := functions.map (fun (name, _) => Defect.staleName .function name) ++
    globals.map (fun (name, _) => Defect.staleName .global name)
  stale.mergeSort fun a b => a.message ≤ b.message

def duplicateNames (m : Module) : List Defect :=
  (repeats (m.functions.entries.map fun (_, f) => f.name)).map (.duplicateName .function) ++
    (repeats (m.globals.entries.map fun (_, g) => g.name)).map (.duplicateName .global)

def entryDefects (m : Module) : List Defect :=
  match m.entry with
  | some id => if (m.function? id).isSome then [] else [.danglingEntry id]
  | none => []

/-- All defects of the module. -/
def defects (m : Module) : List Defect :=
  m.staleNames ++ m.duplicateNames ++ m.entryDefects ++
    (m.globals.entries.flatMap fun (_, g) => m.globalDefects g) ++
    (m.functions.entries.flatMap fun (_, f) => m.functionDefects f)

end Module

end Monolith

import Monolith.Operand

/-! # Instructions

An operation computes at most one result, which it names by its destination.
A phi takes the operand that is listed for the block just left.
-/

namespace Monolith

inductive BinaryOp where
  | add
  | sub
  | mul
  | sdiv
  | udiv
  | srem
  | urem
  | and
  | or
  | xor
  | shl
  | lshr
  | ashr
  deriving DecidableEq, Repr

inductive Predicate where
  | eq
  | ne
  | slt
  | sle
  | sgt
  | sge
  | ult
  | ule
  | ugt
  | uge
  deriving DecidableEq, Repr

inductive Operation where
  | alloca (dest : ValueId) (ty : Ty) (align : UInt64) (addrSpace : UInt32)
  | load (dest : ValueId) (ty : Ty) (address : Operand) (align : UInt64)
  | store (value address : Operand) (align : UInt64)
  | elementPtr (dest : ValueId) (source : Ty) (base : Operand) (indices : List Operand)
      (inbounds : Bool)
  | binary (op : BinaryOp) (dest : ValueId) (ty : Ty) (lhs rhs : Operand)
  | compare (predicate : Predicate) (dest : ValueId) (lhs rhs : Operand)
  | cast (op : CastOp) (dest : ValueId) (value : Operand) (ty : Ty)
  | call (dest : Option ValueId) (returnType : Ty) (callee : Operand) (args : List Operand)
  | phi (dest : ValueId) (ty : Ty) (incoming : List (Operand × BlockId))
  deriving DecidableEq, Inhabited

structure Instruction where
  op : Operation
  comment : Option String := none
  deriving DecidableEq, Inhabited

namespace Operation

def dest? : Operation → Option ValueId
  | .alloca dest .. => some dest
  | .load dest .. => some dest
  | .store .. => none
  | .elementPtr dest .. => some dest
  | .binary _ dest .. => some dest
  | .compare _ dest .. => some dest
  | .cast _ dest .. => some dest
  | .call dest .. => dest
  | .phi dest .. => some dest

/-- Renames the destination, if there is one. -/
def mapDest (rename : ValueId → ValueId) : Operation → Operation
  | .alloca dest ty align addrSpace => .alloca (rename dest) ty align addrSpace
  | .load dest ty address align => .load (rename dest) ty address align
  | .store value address align => .store value address align
  | .elementPtr dest source base indices inbounds =>
      .elementPtr (rename dest) source base indices inbounds
  | .binary op dest ty lhs rhs => .binary op (rename dest) ty lhs rhs
  | .compare predicate dest lhs rhs => .compare predicate (rename dest) lhs rhs
  | .cast op dest value ty => .cast op (rename dest) value ty
  | .call dest returnType callee args => .call (dest.map rename) returnType callee args
  | .phi dest ty incoming => .phi (rename dest) ty incoming

/-- The type of the result, if there is one. -/
def resultType? : Operation → Option Ty
  | .alloca .. => some .ptr
  | .load _ ty .. => some ty
  | .store .. => none
  | .elementPtr .. => some .ptr
  | .binary _ _ ty .. => some ty
  | .compare .. => some (.int 1)
  | .cast _ _ _ ty => some ty
  | .call dest returnType .. => dest.map fun _ => returnType
  | .phi _ ty _ => some ty

def operands : Operation → List Operand
  | .alloca .. => []
  | .load _ _ address _ => [address]
  | .store value address _ => [value, address]
  | .elementPtr _ _ base indices _ => base :: indices
  | .binary _ _ _ lhs rhs => [lhs, rhs]
  | .compare _ _ lhs rhs => [lhs, rhs]
  | .cast _ _ value _ => [value]
  | .call _ _ callee args => callee :: args
  | .phi _ _ incoming => incoming.map Prod.fst

/-- Changes the operands, first to last. -/
def mapOperandsM {m : Type → Type} [Monad m] (f : Operand → m Operand) :
    Operation → m Operation
  | .alloca dest ty align addrSpace => pure (.alloca dest ty align addrSpace)
  | .load dest ty address align => do return .load dest ty (← f address) align
  | .store value address align => do
      let value ← f value
      return .store value (← f address) align
  | .elementPtr dest source base indices inbounds => do
      let base ← f base
      return .elementPtr dest source base (← indices.mapM f) inbounds
  | .binary op dest ty lhs rhs => do
      let lhs ← f lhs
      return .binary op dest ty lhs (← f rhs)
  | .compare predicate dest lhs rhs => do
      let lhs ← f lhs
      return .compare predicate dest lhs (← f rhs)
  | .cast op dest value ty => do return .cast op dest (← f value) ty
  | .call dest returnType callee args => do
      let callee ← f callee
      return .call dest returnType callee (← args.mapM f)
  | .phi dest ty incoming => do
      return .phi dest ty (← incoming.mapM fun (value, block) => do return (← f value, block))

def mapOperands (f : Operand → Operand) : Operation → Operation
  | .alloca dest ty align addrSpace => .alloca dest ty align addrSpace
  | .load dest ty address align => .load dest ty (f address) align
  | .store value address align => .store (f value) (f address) align
  | .elementPtr dest source base indices inbounds =>
      .elementPtr dest source (f base) (indices.map f) inbounds
  | .binary op dest ty lhs rhs => .binary op dest ty (f lhs) (f rhs)
  | .compare predicate dest lhs rhs => .compare predicate dest (f lhs) (f rhs)
  | .cast op dest value ty => .cast op dest (f value) ty
  | .call dest returnType callee args => .call dest returnType (f callee) (args.map f)
  | .phi dest ty incoming => .phi dest ty (incoming.map fun (value, block) => (f value, block))

/-- Renames the blocks that a phi lists. -/
def mapIncoming (rename : BlockId → BlockId) : Operation → Operation
  | .phi dest ty incoming =>
      .phi dest ty (incoming.map fun (value, block) => (value, rename block))
  | op => op

/-- The variables that are read, in order. -/
def uses (op : Operation) : List ValueId := op.operands.filterMap Operand.var?

def isPhi : Operation → Bool
  | .phi .. => true
  | _ => false

def isAlloca : Operation → Bool
  | .alloca .. => true
  | _ => false

def isCall : Operation → Bool
  | .call .. => true
  | _ => false

def callee? : Operation → Option Operand
  | .call _ _ callee _ => some callee
  | _ => none

/-- The function that a direct call names. -/
def directCallee? (op : Operation) : Option FunctionId := op.callee?.bind Operand.function?

def hasSideEffects : Operation → Bool
  | .store .. => true
  | .call .. => true
  | _ => false

end Operation

namespace Instruction

def mapOperands (f : Operand → Operand) (instruction : Instruction) : Instruction :=
  { instruction with op := instruction.op.mapOperands f }

def mapDest (rename : ValueId → ValueId) (instruction : Instruction) : Instruction :=
  { instruction with op := instruction.op.mapDest rename }

def mapIncoming (rename : BlockId → BlockId) (instruction : Instruction) : Instruction :=
  { instruction with op := instruction.op.mapIncoming rename }

end Instruction

end Monolith

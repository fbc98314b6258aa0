import Monolith.Function.Basic

/-! # Building functions

A builder appends to one block of a function at a time. Appending to a block
that does not exist drops the instruction; its result is recorded all the same.
-/

namespace Monolith

structure Builder where
  function : Function
  current : BlockId
  deriving Inhabited

namespace Builder

/-- A builder at the entry of the function. -/
def start (f : Function) : Builder := { function := f, current := f.entry }

def switchTo (b : Builder) (block : BlockId) : Builder := { b with current := block }

def createBlock (b : Builder) (name : String) : Builder × BlockId :=
  let (f, id) := b.function.addBlock (some name)
  ({ b with function := f }, id)

def append (b : Builder) (op : Operation) : Builder :=
  { b with function := b.function.mapBlock b.current (·.mapInstructions (· ++ [{ op }])) }

/-- Records a variable and appends the operation that defines it. -/
def result (b : Builder) (ty : Ty) (op : ValueId → Operation) (name : Option String := none) :
    Builder × ValueId :=
  let (f, id) := b.function.addValue ty name
  ({ b with function := f }.append (op id), id)

def alloca (b : Builder) (ty : Ty) (name : Option String := none) : Builder × ValueId :=
  b.result .ptr (.alloca · ty ty.alignWord 0) name

def load (b : Builder) (ty : Ty) (address : Operand) : Builder × ValueId :=
  b.result ty (.load · ty address ty.alignWord)

/-- A value of unknown type is stored without alignment. -/
def store (b : Builder) (value address : Operand) : Builder :=
  let align := ((b.function.operandType? value).map Ty.alignWord).getD 1
  b.append (.store value address align)

def elementPtr (b : Builder) (source : Ty) (base : Operand) (indices : List Operand) :
    Builder × ValueId :=
  b.result .ptr (.elementPtr · source base indices true)

def binary (b : Builder) (op : BinaryOp) (ty : Ty) (lhs rhs : Operand) : Builder × ValueId :=
  b.result ty (.binary op · ty lhs rhs)

def compare (b : Builder) (predicate : Predicate) (lhs rhs : Operand) : Builder × ValueId :=
  b.result (.int 1) (.compare predicate · lhs rhs)

def cast (b : Builder) (op : CastOp) (value : Operand) (ty : Ty) : Builder × ValueId :=
  b.result ty (.cast op · value ty)

/-- A call has a result unless its type is void. -/
def call (b : Builder) (returnType : Ty) (callee : Operand) (args : List Operand) :
    Builder × Option ValueId :=
  if returnType.isVoid then (b.append (.call none returnType callee args), none)
  else
    let (b, id) := b.result returnType fun id => .call (some id) returnType callee args
    (b, some id)

def phi (b : Builder) (ty : Ty) (incoming : List (Operand × BlockId)) : Builder × ValueId :=
  b.result ty (.phi · ty incoming)

/-- Ends the current block, which has to exist. -/
def terminate (b : Builder) (terminator : Terminator) : Except Fault Builder := do
  return { b with function := ← b.function.setTerminator b.current terminator }

end Builder

end Monolith

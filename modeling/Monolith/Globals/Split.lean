import Monolith.Globals.Draft

/-! # Splitting aggregates

Constant expressions and references to the globals that get local storage
cannot stay inside an aggregate that is stored at once. Each is taken out, so
that an undefined value of its type is left, and is stored by itself.
-/

namespace Monolith

/-- The object that an aggregate is stored to. -/
structure StoreTarget where
  /-- The globals that get local storage. -/
  tracked : GlobalId → Bool
  source : Ty
  base : Operand

namespace StoreTarget

/-- Stores a constant to the element at the end of the path and gives what is left
in its place. -/
def storeElement (target : StoreTarget) (path : List Nat) (value : Constant) :
    StateM Draft Constant := do
  let address ← Draft.newValue .ptr
  let indices := (0 :: path).map fun index => Operand.i32 (Int64.ofNat index)
  Draft.emit (.elementPtr address target.source target.base indices true)
  Draft.emit (.store (.const value) (.var address) value.ty.alignWord)
  return .undef value.ty

mutual

/-- Splits the element at the end of the path. -/
def splitElement (target : StoreTarget) (path : List Nat) : Constant → StateM Draft Constant
  | .aggregate ty elements =>
      return .aggregate ty (← splitElements target path 0 elements)
  | .elementPtr source base indices =>
      target.storeElement path (.elementPtr source base indices)
  | .cast op value ty => target.storeElement path (.cast op value ty)
  | .global id =>
      if target.tracked id then target.storeElement path (.global id) else return .global id
  | c => return c

/-- Splits the elements from the given index on. -/
def splitElements (target : StoreTarget) (path : List Nat) (index : Nat) :
    List Constant → StateM Draft (List Constant)
  | [] => return []
  | c :: cs => do
      let first ← splitElement target (path ++ [index]) c
      return first :: (← splitElements target path (index + 1) cs)

end

/-- Splits an aggregate; any other constant is stored as it is. -/
def split (target : StoreTarget) (c : Constant) : StateM Draft Constant :=
  if c.isAggregate then target.splitElement [] c else return c

end StoreTarget

end Monolith

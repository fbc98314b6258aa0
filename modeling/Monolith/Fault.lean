/-! # Faults

A computation faults when it addresses an entity that its arena does not hold,
or when a quantity of 64 bits overflows. A fault is no answer of the program:
it has no message, and nothing recovers from it.
-/

namespace Monolith

inductive Fault where
  | outOfBounds
  | overflow
  deriving DecidableEq, Repr

/-- The quantity, if it fits into 64 bits. -/
def checked64 (value : Nat) : Except Fault Nat :=
  if value < UInt64.size then .ok value else .error .overflow

/-- The entry at the given position. -/
def entryAt {α : Type} (entries : List α) (index : Nat) : Except Fault α :=
  match entries[index]? with
  | some entry => .ok entry
  | none => .error .outOfBounds

end Monolith

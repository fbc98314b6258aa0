import Monolith.Fault
import Monolith.Ty.Basic

/-! # Layout of types

Sizes are in bytes. An integer takes the least power of two that holds its
bits, and is aligned to its size up to eight. A struct places each field at the
next multiple of the field's alignment and rounds its own size up to its
alignment; a packed struct does neither.
-/

namespace Monolith

/-- The least power of two that is at least `n`. -/
def leastPowerOfTwo (n : Nat) : Nat := if n ≤ 1 then 1 else 1 <<< (Nat.log2 (n - 1) + 1)

/-- The least multiple of `align` that is at least `offset`. -/
def roundUp (offset align : Nat) : Nat :=
  if align ≤ 1 then offset else (offset + align - 1) / align * align

namespace Ty

def pointerSize : Nat := 8

def integerSize (bits : UInt32) : Nat := leastPowerOfTwo (max ((bits.toNat + 7) / 8) 1)

mutual

def align : Ty → Nat
  | .void => 1
  | .int bits => min (integerSize bits) 8
  | .ptr => pointerSize
  | .array element _ => element.align
  | .struct fields packed => if packed then 1 else alignAll fields

/-- The greatest alignment of the types, one if there are none. -/
def alignAll : List Ty → Nat
  | [] => 1
  | t :: ts => max t.align (alignAll ts)

end

mutual

/-- The size, unless it or a size it is computed from overflows. -/
def size : Ty → Except Fault Nat
  | .void => .ok 0
  | .int bits => .ok (integerSize bits)
  | .ptr => .ok pointerSize
  | .array element len => do checked64 ((← element.size) * len.toNat)
  | .struct fields packed => do
      let offset ← endOffset packed 0 fields
      if packed then return offset else checked64 (roundUp offset (alignAll fields))

/-- Where the fields end that are placed one after the other from `offset` on. -/
def endOffset (packed : Bool) (offset : Nat) : List Ty → Except Fault Nat
  | [] => .ok offset
  | field :: rest => do
      let start ← if packed then pure offset else checked64 (roundUp offset field.align)
      let fieldSize ← field.size
      let next ← checked64 (start + fieldSize)
      endOffset packed next rest

end

/-- The alignment as it is written into an instruction. -/
def alignWord (t : Ty) : UInt64 := UInt64.ofNat t.align

end Ty

end Monolith

/-! # Types

Pointers are opaque: the instruction that goes through a pointer names the
type it finds there.
-/

namespace Monolith

inductive Ty where
  | void
  | int (bits : UInt32)
  | ptr
  | array (element : Ty) (len : UInt64)
  | struct (fields : List Ty) (packed : Bool)
  deriving Inhabited

namespace Ty

mutual

def beq : Ty → Ty → Bool
  | .void, .void => true
  | .int a, .int b => a == b
  | .ptr, .ptr => true
  | .array s m, .array t n => beq s t && m == n
  | .struct fs p, .struct gs q => beqAll fs gs && p == q
  | _, _ => false

def beqAll : List Ty → List Ty → Bool
  | [], [] => true
  | s :: ss, t :: ts => beq s t && beqAll ss ts
  | _, _ => false

end

mutual

theorem beq_refl : (t : Ty) → beq t t = true
  | .void => rfl
  | .int _ => by simp [beq]
  | .ptr => rfl
  | .array t _ => by simp [beq, beq_refl t]
  | .struct fs _ => by simp [beq, beqAll_refl fs]

theorem beqAll_refl : (ts : List Ty) → beqAll ts ts = true
  | [] => rfl
  | t :: ts => by simp [beqAll, beq_refl t, beqAll_refl ts]

end

mutual

theorem eq_of_beq : (s t : Ty) → beq s t = true → s = t
  | .void, t, h => by cases t <;> simp_all [beq]
  | .int _, t, h => by cases t <;> simp_all [beq]
  | .ptr, t, h => by cases t <;> simp_all [beq]
  | .array s m, t, h => by
      cases t with
      | array t n =>
          simp only [beq, Bool.and_eq_true, beq_iff_eq] at h
          rw [eq_of_beq s t h.1, h.2]
      | _ => simp [beq] at h
  | .struct fs p, t, h => by
      cases t with
      | struct gs q =>
          simp only [beq, Bool.and_eq_true, beq_iff_eq] at h
          rw [eq_of_beqAll fs gs h.1, h.2]
      | _ => simp [beq] at h

theorem eq_of_beqAll : (ss ts : List Ty) → beqAll ss ts = true → ss = ts
  | [], ts, h => by cases ts <;> simp_all [beqAll]
  | s :: ss, ts, h => by
      cases ts with
      | nil => simp [beqAll] at h
      | cons t ts =>
          simp only [beqAll, Bool.and_eq_true] at h
          rw [eq_of_beq s t h.1, eq_of_beqAll ss ts h.2]

end

instance : DecidableEq Ty := fun s t =>
  decidable_of_iff (beq s t = true) ⟨eq_of_beq s t, fun h => h ▸ beq_refl s⟩

def isVoid : Ty → Bool
  | .void => true
  | _ => false

def isInteger : Ty → Bool
  | .int _ => true
  | _ => false

def isPointer : Ty → Bool
  | .ptr => true
  | _ => false

def isArray : Ty → Bool
  | .array .. => true
  | _ => false

def isAggregate : Ty → Bool
  | .array .. => true
  | .struct .. => true
  | _ => false

def elementCount? : Ty → Option Nat
  | .array _ len => some len.toNat
  | .struct fields _ => some fields.length
  | _ => none

def elementType? (index : Nat) : Ty → Option Ty
  | .array element len => if index < len.toNat then some element else none
  | .struct fields _ => fields[index]?
  | _ => none

end Ty

end Monolith

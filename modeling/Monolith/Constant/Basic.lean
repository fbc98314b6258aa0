import Monolith.Ty.Basic

/-! # Constants

A constant is a tree: aggregates own their elements, and a constant expression
computes an address or a conversion from another constant. References to
globals and functions are leaves.
-/

namespace Monolith

abbrev GlobalId := Nat

abbrev FunctionId := Nat

inductive CastOp where
  | trunc
  | zext
  | sext
  | ptrToInt
  | intToPtr
  | bitcast
  deriving DecidableEq, Repr

inductive Constant where
  | int (ty : Ty) (value : Int64)
  | null
  | undef (ty : Ty)
  | poison (ty : Ty)
  /-- An array of bytes; a leaf. -/
  | bytes (data : List UInt8)
  | aggregate (ty : Ty) (elements : List Constant)
  | global (id : GlobalId)
  | function (id : FunctionId)
  /-- The address of an element of the object at `base`. -/
  | elementPtr (source : Ty) (base : Constant) (indices : List Int64)
  | cast (op : CastOp) (value : Constant) (ty : Ty)
  deriving Inhabited

namespace Constant

mutual

def beq : Constant → Constant → Bool
  | .int s a, .int t b => s == t && a == b
  | .null, .null => true
  | .undef s, .undef t => s == t
  | .poison s, .poison t => s == t
  | .bytes a, .bytes b => a == b
  | .aggregate s as, .aggregate t bs => s == t && beqAll as bs
  | .global a, .global b => a == b
  | .function a, .function b => a == b
  | .elementPtr s a is, .elementPtr t b js => s == t && beq a b && is == js
  | .cast o a s, .cast p b t => o == p && beq a b && s == t
  | _, _ => false

def beqAll : List Constant → List Constant → Bool
  | [], [] => true
  | a :: as, b :: bs => beq a b && beqAll as bs
  | _, _ => false

end

mutual

theorem beq_refl : (c : Constant) → beq c c = true
  | .int .. | .null | .undef _ | .poison _ | .bytes _ | .global _ | .function _ => by simp [beq]
  | .aggregate _ cs => by simp [beq, beqAll_refl cs]
  | .elementPtr _ c _ => by simp [beq, beq_refl c]
  | .cast _ c _ => by simp [beq, beq_refl c]

theorem beqAll_refl : (cs : List Constant) → beqAll cs cs = true
  | [] => rfl
  | c :: cs => by simp [beqAll, beq_refl c, beqAll_refl cs]

end

mutual

theorem eq_of_beq : (a b : Constant) → beq a b = true → a = b
  | .int .., b, h | .null, b, h | .undef _, b, h | .poison _, b, h | .bytes _, b, h
  | .global _, b, h | .function _, b, h => by cases b <;> simp_all [beq]
  | .aggregate s as, b, h => by
      cases b with
      | aggregate t bs =>
          simp only [beq, Bool.and_eq_true, beq_iff_eq] at h
          rw [h.1, eq_of_beqAll as bs h.2]
      | _ => simp [beq] at h
  | .elementPtr s a is, b, h => by
      cases b with
      | elementPtr t b js =>
          simp only [beq, Bool.and_eq_true, beq_iff_eq] at h
          rw [h.1.1, eq_of_beq a b h.1.2, h.2]
      | _ => simp [beq] at h
  | .cast o a s, b, h => by
      cases b with
      | cast p b t =>
          simp only [beq, Bool.and_eq_true, beq_iff_eq] at h
          rw [h.1.1, eq_of_beq a b h.1.2, h.2]
      | _ => simp [beq] at h

theorem eq_of_beqAll : (as bs : List Constant) → beqAll as bs = true → as = bs
  | [], bs, h => by cases bs <;> simp_all [beqAll]
  | a :: as, bs, h => by
      cases bs with
      | nil => simp [beqAll] at h
      | cons b bs =>
          simp only [beqAll, Bool.and_eq_true] at h
          rw [eq_of_beq a b h.1, eq_of_beqAll as bs h.2]

end

instance : DecidableEq Constant := fun a b =>
  decidable_of_iff (beq a b = true) ⟨eq_of_beq a b, fun h => h ▸ beq_refl a⟩

/-- The bytes of the text in UTF-8, and a zero byte at the end. -/
def ofText (text : String) : Constant := .bytes (text.toUTF8.toList ++ [0])

def i32 (value : Int64) : Constant := .int (.int 32) value

def ty : Constant → Ty
  | .int ty _ => ty
  | .undef ty => ty
  | .poison ty => ty
  | .aggregate ty _ => ty
  | .bytes data => .array (.int 8) (UInt64.ofNat data.length)
  | .null => .ptr
  | .global _ => .ptr
  | .function _ => .ptr
  | .elementPtr .. => .ptr
  | .cast _ _ ty => ty

def isPoison : Constant → Bool
  | .poison _ => true
  | _ => false

def isAggregate : Constant → Bool
  | .aggregate .. => true
  | _ => false

/-- Whether the constant is computed from another one. -/
def isExpr : Constant → Bool
  | .elementPtr .. => true
  | .cast .. => true
  | _ => false

def global? : Constant → Option GlobalId
  | .global id => some id
  | _ => none

def function? : Constant → Option FunctionId
  | .function id => some id
  | _ => none

def element? (index : Nat) : Constant → Option Constant
  | .aggregate _ elements => elements[index]?
  | _ => none

mutual

/-- The constant and all constants below it, each before its parts. -/
def nodes : Constant → List Constant
  | .aggregate ty elements => .aggregate ty elements :: nodesAll elements
  | .elementPtr source base indices => .elementPtr source base indices :: base.nodes
  | .cast op value ty => .cast op value ty :: value.nodes
  | c => [c]

def nodesAll : List Constant → List Constant
  | [] => []
  | c :: cs => c.nodes ++ nodesAll cs

end

def containsPoison (c : Constant) : Bool := c.nodes.any isPoison

def globals (c : Constant) : List GlobalId := c.nodes.filterMap global?

def functions (c : Constant) : List FunctionId := c.nodes.filterMap function?

/-- The globals that are mentioned, each once, in the order of their first mention. -/
def distinctGlobals (c : Constant) : List GlobalId := c.globals.eraseDups

def mentionsGlobal (id : GlobalId) (c : Constant) : Bool := c.globals.contains id

def mentionsFunction (id : FunctionId) (c : Constant) : Bool := c.functions.contains id

mutual

/-- Puts `replacement` in place of every reference to the function. -/
def replaceFunction (id : FunctionId) (replacement : Constant) : Constant → Constant
  | .function other => if other = id then replacement else .function other
  | .aggregate ty elements => .aggregate ty (replaceFunctionAll id replacement elements)
  | .elementPtr source base indices =>
      .elementPtr source (replaceFunction id replacement base) indices
  | .cast op value ty => .cast op (replaceFunction id replacement value) ty
  | c => c

def replaceFunctionAll (id : FunctionId) (replacement : Constant) :
    List Constant → List Constant
  | [] => []
  | c :: cs => replaceFunction id replacement c :: replaceFunctionAll id replacement cs

end

/-- The number of references to the function. -/
def functionUses (id : FunctionId) (c : Constant) : Nat := c.functions.count id

end Constant

end Monolith

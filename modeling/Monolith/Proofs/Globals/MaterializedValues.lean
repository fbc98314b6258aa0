import Monolith.Globals.Materialize
import Monolith.Proofs.Code.Meaning

/-! # Values of materialized constants

A constant expression denotes a value, and so does the operand that is computed for it. The
indices of an element address are 64 bits wide in the expression, but the instruction gets them
as constants of 32 bits. So the operand has the value of the expression with its indices cut to
32 bits, and that is the value of the expression itself only if they fit.
-/

namespace Monolith

variable {c : Constant}

/-- What numbers, addresses and the operations of constant expressions mean. -/
structure Valuation where
  Value : Type
  number : Int → Value
  /-- The address of a global, or of the slot that takes its place. -/
  address : GlobalId → Value
  /-- The other constants without parts. -/
  leaf : Constant → Value
  aggregate : Ty → List Value → Value
  elementPtr : Ty → Bool → Value → List Value → Value
  cast : CastOp → Value → Ty → Value

namespace Valuation

variable (I : Valuation)

mutual

/-- The value of a constant. An integer has as many bits as its type, and is signed. -/
def denote : Constant → I.Value
  | .int (.int bits) value => I.number (BitVec.ofInt bits.toNat value.toInt).toInt
  | .global id => I.address id
  | .aggregate ty elements => I.aggregate ty (denoteAll elements)
  | .elementPtr source base indices =>
      I.elementPtr source true (denote base) (indices.map fun index => I.number index.toInt)
  | .cast op value ty => I.cast op (denote value) ty
  | c => I.leaf c

def denoteAll : List Constant → List I.Value
  | [] => []
  | c :: cs => denote c :: denoteAll cs

end

def eval (env : Env I.Value) : Operand → Option I.Value
  | .var x => env x
  | .const c => some (I.denote c)

def step (env : Env I.Value) : Operation → Option (Env I.Value)
  | .elementPtr dest source base indices inbounds => do
      let base ← I.eval env base
      let indices ← indices.mapM (I.eval env)
      return env.set dest (I.elementPtr source inbounds base indices)
  | .cast op dest value ty => do
      let value ← I.eval env value
      return env.set dest (I.cast op value ty)
  | _ => none

def run (env : Env I.Value) (code : List Instruction) : Option (Env I.Value) :=
  code.foldlM (fun env i => I.step env i.op) env

variable {I}

theorem run_concat {env env' : Env I.Value} {code : List Instruction}
    (h : I.run env code = some env') (i : Instruction) :
    I.run env (code ++ [i]) = I.step env' i.op := by
  rw [run, List.foldlM_append]
  change (I.run env code).bind _ = _
  rw [h, Option.bind_some]
  exact bind_pure (I.step env' i.op)

end Valuation

/-! ## Indices of 32 bits -/

def narrow (index : Int64) : Int64 := index.toInt32.toInt64

theorem toInt_narrow (index : Int64) : (narrow index).toInt = index.toInt.bmod 4294967296 := by
  rw [narrow, Int32.toInt_toInt64, Int64.toInt_toInt32]

theorem narrow_eq_self_iff {index : Int64} :
    narrow index = index ↔ -2147483648 ≤ index.toInt ∧ index.toInt < 2147483648 := by
  rw [← Int64.toInt_inj, toInt_narrow, Int.bmod_eq_iff (by omega)]
  omega

theorem Valuation.denote_i32 (I : Valuation) (index : Int64) :
    I.denote (.i32 index) = I.number (narrow index).toInt := by
  rw [toInt_narrow, Constant.i32, denote, BitVec.toInt_ofInt]
  rfl

namespace Constant

def indices : Constant → List Int64
  | .elementPtr _ base indices => base.indices ++ indices
  | .cast _ value _ => value.indices
  | _ => []

def narrowed : Constant → Constant
  | .elementPtr source base indices => .elementPtr source base.narrowed (indices.map narrow)
  | .cast op value ty => .cast op value.narrowed ty
  | c => c

/-- A constant expression is computed from one other constant. -/
@[elab_as_elim]
theorem expr_induction {P : Constant → Prop} (leaf : ∀ c, c.isExpr = false → P c)
    (elementPtr : ∀ source base indices, P base → P (.elementPtr source base indices))
    (cast : ∀ op value ty, P value → P (.cast op value ty)) : (c : Constant) → P c
  | .elementPtr source base indices =>
      elementPtr source base indices (expr_induction leaf elementPtr cast base)
  | .cast op value ty => cast op value ty (expr_induction leaf elementPtr cast value)
  | .int .. | .null | .undef _ | .poison _ | .bytes _ | .aggregate .. | .global _ | .function _ =>
      leaf _ rfl

theorem narrowed_of_isExpr (h : c.isExpr = false) : c.narrowed = c := by
  cases c with
  | elementPtr => cases h
  | cast => cases h
  | _ => rfl

theorem indices_of_isExpr (h : c.isExpr = false) : c.indices = [] := by
  cases c with
  | elementPtr => cases h
  | cast => cases h
  | _ => rfl

theorem narrowed_eq_self (h : ∀ index ∈ c.indices, narrow index = index) : c.narrowed = c := by
  induction c using expr_induction with
  | leaf c hc => exact narrowed_of_isExpr hc
  | elementPtr source base indices ih =>
      obtain ⟨hbase, hindices⟩ := List.forall_mem_append.mp h
      rw [narrowed, ih hbase, List.map_congr_left hindices, List.map_id']
  | cast op value ty ih => rw [narrowed, ih h]

end Constant

/-- All indices, in order, as the value of an expression. -/
def Valuation.trail : Valuation where
  Value := List Int
  number n := [n]
  address _ := []
  leaf _ := []
  aggregate _ _ := []
  elementPtr _ _ base indices := base ++ indices.flatten
  cast _ value _ := value

/-- Cutting an index that does not fit shows in the trail. -/
theorem Constant.narrow_of_trail
    (h : Valuation.trail.denote c.narrowed = Valuation.trail.denote c) :
    ∀ index ∈ c.indices, narrow index = index := by
  induction c using expr_induction with
  | leaf c hc =>
      rw [indices_of_isExpr hc]
      exact List.forall_mem_nil _
  | elementPtr source base indices ih =>
      have hflatten : ∀ indices : List Int64,
          (indices.map fun index => [index.toInt]).flatten = indices.map Int64.toInt := by
        intro indices
        rw [← List.flatMap_def, ← List.map_eq_flatMap]
      simp only [narrowed, Valuation.denote, Valuation.trail, hflatten] at h
      obtain ⟨hbase, hindices⟩ := List.append_inj' h (by simp)
      refine List.forall_mem_append.mpr ⟨ih hbase, fun index hindex => ?_⟩
      rw [List.map_map, List.map_inj_left] at hindices
      exact Int64.toInt_inj.mp (hindices index hindex)
  | cast op value ty ih => exact ih h

namespace Localized

/-! ## What is computed -/

/-- Code has been added to the draft, with variables of its own. After it has run, the operand has
the value of the constant, and the variables recorded before have their values still. -/
def Computes (before : Draft) (c : Constant) (o : Operand) (after : Draft) : Prop :=
  ∃ values code,
    after = { before with values := before.values ++ values, code := before.code ++ code } ∧
    ∀ (I : Valuation) (env : Env I.Value), ∃ env', I.run env code = some env' ∧
      I.eval env' o = some (I.denote c) ∧ ∀ x < before.values.length, env' x = env x

namespace Computes

variable {before next : Draft} {o : Operand}

theorem const (draft : Draft) (c : Constant) : Computes draft c (.const c) draft :=
  ⟨[], [], by simp, fun _ env => ⟨env, rfl, rfl, fun _ _ => rfl⟩⟩

/-- One more instruction computes the value from that of the operand. -/
theorem extend (h : Computes before c o next) (ty : Ty) {op : Operation} {whole : Constant}
    (hstep : ∀ (I : Valuation) (env : Env I.Value),
      I.eval env o = some (I.denote c) →
        I.step env op = some (env.set next.values.length (I.denote whole))) :
    Computes before whole (.var next.values.length)
      { next with values := next.values ++ [{ ty }], code := next.code ++ [{ op }] } := by
  obtain ⟨values, code, rfl, hrun⟩ := h
  refine ⟨values ++ [{ ty := ty }], code ++ [{ op := op }], by simp, fun I env => ?_⟩
  obtain ⟨env', hrun, heval, hframe⟩ := hrun I env
  refine ⟨_, (Valuation.run_concat hrun _).trans (hstep I env' heval), Env.set_self _ _ _,
    fun x hx => ?_⟩
  -- the new variable is recorded after those of before
  have hne : x ≠ (before.values ++ values).length := by
    rw [List.length_append]
    omega
  rw [env'.set_of_ne _ hne, hframe x hx]

theorem elementPtr {base : Constant} (h : Computes before base o next) (source : Ty)
    (indices : List Int64) :
    Computes before (.elementPtr source base (indices.map narrow)) (.var next.values.length)
      { next with
        values := next.values ++ [{ ty := .ptr }]
        code := next.code ++
          [{ op := .elementPtr next.values.length source o (indices.map Operand.i32) true }] } := by
  refine h.extend .ptr fun I env heval => ?_
  have hindices : (indices.map Operand.i32).mapM (I.eval env) =
      some ((indices.map narrow).map fun index => I.number index.toInt) := by
    induction indices with
    | nil => rfl
    | cons index indices ih =>
        rw [List.map_cons, List.mapM_cons, ih, List.map_cons, List.map_cons, ← I.denote_i32]
        rfl
  rw [Valuation.step, heval, hindices, Valuation.denote]
  rfl

theorem cast {value : Constant} (h : Computes before value o next) (op : CastOp) (ty : Ty) :
    Computes before (.cast op value ty) (.var next.values.length)
      { next with
        values := next.values ++ [{ ty }]
        code := next.code ++ [{ op := .cast op next.values.length o ty }] } := by
  refine h.extend ty fun I env heval => ?_
  rw [Valuation.step, heval, Valuation.denote]
  rfl

end Computes

variable (scope : Localized)

theorem materialize_of_isExpr (h : c.isExpr = false) (draft : Draft) :
    scope.materialize c draft = (.const c, draft) := by
  cases c with
  | elementPtr => cases h
  | cast => cases h
  | _ => rfl

def computed (c : Constant) : Constant := if c.globals.any scope.tracks then c.narrowed else c

theorem computes_materialize (c : Constant) (draft : Draft) :
    Computes draft (scope.computed c) (scope.materialize c draft).1
      (scope.materialize c draft).2 := by
  induction c using Constant.expr_induction with
  | leaf c hc =>
      rw [materialize_of_isExpr scope hc, computed, Constant.narrowed_of_isExpr hc, ite_self]
      exact .const draft c
  | elementPtr source base indices ih =>
      have hglobals : (Constant.elementPtr source base indices).globals = base.globals := rfl
      by_cases htracked : base.globals.any scope.tracks = true
      · rw [computed, if_pos htracked] at ih
        rw [computed, hglobals, if_pos htracked, materialize, if_pos htracked]
        exact ih.elementPtr source indices
      · rw [computed, hglobals, if_neg htracked, materialize, if_neg htracked]
        exact .const draft _
  | cast op value ty ih =>
      have hglobals : (Constant.cast op value ty).globals = value.globals := rfl
      by_cases htracked : value.globals.any scope.tracks = true
      · rw [computed, if_pos htracked] at ih
        rw [computed, hglobals, if_pos htracked, materialize, if_pos htracked]
        exact ih.cast op ty
      · rw [computed, hglobals, if_neg htracked, materialize, if_neg htracked]
        exact .const draft _

/-- The constant and the one that is computed in its place have the same value under every
meaning just if no index has to be cut. -/
theorem denote_computed_iff (c : Constant) :
    (∀ I : Valuation, I.denote (scope.computed c) = I.denote c) ↔
      (c.globals.any scope.tracks = true → ∀ index ∈ c.indices, narrow index = index) := by
  by_cases htracked : c.globals.any scope.tracks = true
  · rw [computed, if_pos htracked]
    refine ⟨fun h _ => Constant.narrow_of_trail (h .trail), fun h I => ?_⟩
    rw [Constant.narrowed_eq_self (h htracked)]
  · rw [computed, if_neg htracked]
    exact ⟨fun _ h => absurd h htracked, fun _ _ => rfl⟩

/-- Materializing a constant adds code that runs to its end and changes none of the variables
recorded before. The operand has then the value of the constant, with indices cut to 32 bits if
the constant mentions a tracked global. This is the value of the constant itself, under every
meaning of addresses and operations, just if it mentions no tracked global or its indices fit in
32 bits. -/
theorem materialized_denotes_iff (scope : Localized) (c : Constant) (draft : Draft) :
    ∃ o values code, (scope.materialize c).run draft =
        (o, { draft with values := draft.values ++ values, code := draft.code ++ code }) ∧
      (∀ (I : Valuation) (env : Env I.Value), ∃ env', I.run env code = some env' ∧
        I.eval env' o = some (I.denote (scope.computed c)) ∧
        ∀ x < draft.values.length, env' x = env x) ∧
      ((∀ (I : Valuation) (env : Env I.Value), ∃ env', I.run env code = some env' ∧
          I.eval env' o = some (I.denote c)) ↔
        (c.globals.any scope.tracks = true →
          ∀ index ∈ c.indices, -2147483648 ≤ index.toInt ∧ index.toInt < 2147483648)) := by
  obtain ⟨values, code, hdraft, hruns⟩ := scope.computes_materialize c draft
  refine ⟨_, values, code, Prod.ext rfl hdraft, hruns, ?_⟩
  simp only [← narrow_eq_self_iff, ← denote_computed_iff]
  constructor
  · intro h I
    obtain ⟨env', hrun, heval⟩ := h I fun _ => none
    obtain ⟨env'', hrun', heval', _⟩ := hruns I fun _ => none
    obtain rfl := Option.some.inj (hrun.symm.trans hrun')
    exact Option.some.inj (heval'.symm.trans heval)
  · intro h I env
    obtain ⟨env', hrun, heval, _⟩ := hruns I env
    rw [h I] at heval
    exact ⟨env', hrun, heval⟩

/-- The byte behind the first four gigabytes of a global. -/
def farByte : Constant := .elementPtr (.int 8) (.global 0) [4294967296]

def farScope : Localized where
  globals := [(0, { name := "bytes", valueType := .array (.int 8) 8589934592 })]
  function := "main"

/-- Addresses count bytes, and the global starts at 4096. -/
def byteAddresses : Valuation where
  Value := Int
  number n := n
  address _ := 4096
  leaf _ := 0
  aggregate _ _ := 0
  elementPtr _ _ base indices := indices.foldl (· + ·) base
  cast _ value _ := value

/-- The computed address is that of the first byte. -/
theorem far_byte_wraps :
    farByte.globals.any farScope.tracks = true ∧
    (farScope.materialize farByte).run { values := [] } =
      (.var 0, { values := [{ ty := .ptr }]
                 code := [{ op := .elementPtr 0 (.int 8) (.const (.global 0))
                              [Operand.i32 4294967296] true }] }) ∧
    ((byteAddresses.run (fun _ => none)
        [{ op := .elementPtr 0 (.int 8) (.const (.global 0)) [Operand.i32 4294967296] true }]).bind
      fun env => byteAddresses.eval env (.var 0)) = some (4096 : Int) ∧
    byteAddresses.denote farByte = (4294971392 : Int) := by
  refine ⟨by decide, rfl, rfl, rfl⟩

end Localized

end Monolith

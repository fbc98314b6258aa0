import Mathlib.Tactic.Common
import Monolith.Module.Basic
import Monolith.Proofs.Code.Rewriting

/-! # What programs do

A function with a body is run on values in a world. Constants, operations and the
truth of conditions are interpreted in any way; so are calls that name no function
with a body. A call of a function with a body runs that body in an environment of
its own, in which each parameter has a value. A run that gets stuck, or does not
end, has no outcome.
-/

namespace Monolith

/-- What is known of the operation itself: neither its operands nor its destination. -/
def Operation.shape (op : Operation) : Operation :=
  (op.mapOperands fun _ => .var 0).mapDest fun _ => 0

/-- What constants, operations and conditions mean. -/
structure Interpretation where
  Value : Type
  World : Type
  constant : Constant → Value
  /-- The result and the world after an operation on the given values. -/
  operation : Operation → List Value → World → Value × World
  truth : Value → Bool

abbrev Env (V : Type) := ValueId → Option V

namespace Env

variable {V : Type}

def set (env : Env V) (x : ValueId) (v : V) : Env V := fun y => if y = x then some v else env y

def assign (env : Env V) (dest : Option ValueId) (v : V) : Env V :=
  match dest with
  | none => env
  | some x => env.set x v

def setAll (env : Env V) (values : List (ValueId × V)) : Env V :=
  values.foldl (fun env (x, v) => env.set x v) env

def ofArguments (parameters : List ValueId) (values : List V) : Env V :=
  fun x => (parameters.zip values).lookup x

theorem set_self (env : Env V) (x : ValueId) (v : V) : env.set x v x = some v := if_pos rfl

theorem set_of_ne (env : Env V) {x y : ValueId} (v : V) (h : y ≠ x) : env.set x v y = env y :=
  if_neg h

theorem assign_of_ne (env : Env V) {dest : Option ValueId} {y : ValueId} (v : V)
    (h : dest ≠ some y) : env.assign dest v y = env y := by
  cases dest with
  | none => rfl
  | some x => exact env.set_of_ne v fun heq => h (congrArg some heq.symm)

/-- Variables that are not set keep their values. -/
theorem setAll_of_not_mem (env : Env V) {values : List (ValueId × V)} {y : ValueId}
    (h : y ∉ values.map Prod.fst) : env.setAll values y = env y := by
  induction values generalizing env with
  | nil => rfl
  | cons entry values ih =>
      rw [List.map_cons, List.mem_cons, not_or] at h
      exact (ih _ h.2).trans (env.set_of_ne entry.2 h.1)

/-- What is set does not depend on what was there before. -/
theorem exists_setAll {values : List (ValueId × V)} {y : ValueId} (h : y ∈ values.map Prod.fst) :
    ∃ v, ∀ env : Env V, env.setAll values y = some v := by
  induction values with
  | nil => cases h
  | cons entry values ih =>
      by_cases hrest : y ∈ values.map Prod.fst
      · obtain ⟨v, hv⟩ := ih hrest
        exact ⟨v, fun env => hv _⟩
      · have hy : y = entry.1 := (List.mem_cons.mp h).resolve_right hrest
        refine ⟨entry.2, fun env => (setAll_of_not_mem _ hrest).trans ?_⟩
        rw [hy]
        exact env.set_self _ _

/-- Each parameter has a value if enough values are passed. -/
theorem exists_ofArguments {parameters : List ValueId} {values : List V} {x : ValueId}
    (hlength : parameters.length ≤ values.length) (hx : x ∈ parameters) :
    ∃ v, ofArguments parameters values x = some v := by
  refine Option.isSome_iff_exists.mp (List.lookup_isSome_iff.mpr ?_)
  rw [← List.map_fst_zip hlength] at hx
  obtain ⟨entry, hentry, rfl⟩ := List.mem_map.mp hx
  exact ⟨entry, hentry, beq_self_eq_true _⟩

end Env

def Block.phis (block : Block) : List Instruction := block.instructions.takeWhile (·.op.isPhi)

def Block.code (block : Block) : List Instruction := block.instructions.dropWhile (·.op.isPhi)

/-- The function with a body that an operation calls directly. -/
def Module.body? (m : Module) (op : Operation) : Option Function :=
  (op.directCallee?.bind m.function?).filter fun f => !f.isDeclaration

/-- A block consists of its phis and the code behind them. -/
theorem Block.instructions_eq (block : Block) : block.instructions = block.phis ++ block.code :=
  List.takeWhile_append_dropWhile.symm

namespace Interpretation

variable (I : Interpretation)

abbrev Outcome := Option I.Value × I.World

def eval (env : Env I.Value) : Operand → Option I.Value
  | .var x => env x
  | .const c => some (I.constant c)

def evalAll (env : Env I.Value) (operands : List Operand) : Option (List I.Value) :=
  operands.mapM (I.eval env)

/-- What a phi takes when control comes from the given block: its first entry for it. -/
def phiValue (env : Env I.Value) (source : BlockId) : Operation → Option (ValueId × I.Value)
  | .phi dest _ incoming => do
      let entry ← incoming.find? fun entry => entry.2 = source
      let value ← I.eval env entry.1
      return (dest, value)
  | _ => none

/-- What the phis of a block take, all from the environment before any of them is set. -/
def phiValues (env : Env I.Value) (source : BlockId) (phis : List Instruction) :
    Option (List (ValueId × I.Value)) :=
  phis.mapM fun i => I.phiValue env source i.op

def target? (env : Env I.Value) : Terminator → Option BlockId
  | .jump target => some target
  | .branch condition onTrue onFalse =>
      (I.eval env condition).map fun value => if I.truth value then onTrue else onFalse
  | .ret _ => none
  | .unreachable => none

def return? (env : Env I.Value) : Terminator → Option (Option I.Value)
  | .ret none => some none
  | .ret (some value) => (I.eval env value).map some
  | _ => none

/-- From the end of a block, control passes to what stands behind the phis of another. -/
inductive Passes (f : Function) (b : BlockId) (env : Env I.Value) :
    BlockId → List Instruction → Env I.Value → Prop where
  | intro {target : BlockId} {block next : Block} {values : List (ValueId × I.Value)}
      (hblock : f.block? b = some block) (htarget : I.target? env block.terminator = some target)
      (hnext : f.block? target = some next)
      (hvalues : I.phiValues env b next.phis = some values) :
      Passes f b env target next.code (env.setAll values)

def Returns (f : Function) (b : BlockId) (env : Env I.Value) (value : Option I.Value) : Prop :=
  ∃ block, f.block? b = some block ∧ I.return? env block.terminator = some value

/-- From the given point of a block, with the instructions that are left of it, the
function comes to its end with the given outcome. -/
inductive Completes (m : Module) : FunctionId → BlockId → List Instruction → Env I.Value →
    I.World → I.Outcome → Prop where
  | operation {id : FunctionId} {b : BlockId} {i : Instruction} {rest : List Instruction}
      {env : Env I.Value} {w : I.World} {out : I.Outcome} {values : List I.Value}
      (hphi : i.op.isPhi = false) (hbody : m.body? i.op = none)
      (hvalues : I.evalAll env i.op.operands = some values)
      (hrest : Completes m id b rest
        (env.assign i.op.dest? (I.operation i.op.shape values w).1)
        (I.operation i.op.shape values w).2 out) :
      Completes m id b (i :: rest) env w out
  | call {id callee : FunctionId} {b : BlockId} {i : Instruction} {rest : List Instruction}
      {env : Env I.Value} {w w₁ : I.World} {out : I.Outcome} {dest : Option ValueId} {ty : Ty}
      {args : List Operand} {values : List I.Value} {g : Function} {first : Block}
      {returned : Option I.Value}
      (hop : i.op = .call dest ty (.const (.function callee)) args)
      (hg : m.function? callee = some g) (hfirst : g.block? g.entry = some first)
      (hvalues : I.evalAll env args = some values)
      (hlength : g.parameters.length ≤ values.length)
      (hrun : Completes m callee g.entry first.instructions
        (Env.ofArguments g.parameters values) w (returned, w₁))
      (hrest : Completes m id b rest
        (env.assign dest (returned.getD (I.constant (.poison ty)))) w₁ out) :
      Completes m id b (i :: rest) env w out
  | goto {id : FunctionId} {b target : BlockId} {rest : List Instruction} {env env' : Env I.Value}
      {w : I.World} {out : I.Outcome} {f : Function} (hf : m.function? id = some f)
      (hpasses : I.Passes f b env target rest env')
      (hrest : Completes m id target rest env' w out) : Completes m id b [] env w out
  | finish {id : FunctionId} {b : BlockId} {env : Env I.Value} {w : I.World} {f : Function}
      {value : Option I.Value} (hf : m.function? id = some f)
      (hreturns : I.Returns f b env value) : Completes m id b [] env w (value, w)

/-- The function has the outcome when it is run on the given values. -/
def Runs (m : Module) (id : FunctionId) (values : List I.Value) (w : I.World)
    (out : I.Outcome) : Prop :=
  ∃ f first, m.function? id = some f ∧ f.block? f.entry = some first ∧
    f.parameters.length ≤ values.length ∧
    I.Completes m id f.entry first.instructions (Env.ofArguments f.parameters values) w out

end Interpretation

end Monolith

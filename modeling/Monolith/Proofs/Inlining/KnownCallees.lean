import Mathlib.Tactic.Common
import Monolith.Inlining.Run

/-! # Callees that are known

A call of a variable calls a function that is known if the variable is a parameter
for which that function is passed, or the result of a call of a known function that
returns it. What is known of a body depends on the calls that lead to it.
-/

namespace Monolith

variable {bodies : FunctionId → Option Function} {n : Nat} {f : Function}

def callsOf (instructions : List Instruction) : List Operation :=
  (instructions.map (·.op)).filter Operation.isCall

def Terminator.result? : Terminator → Option Operand
  | .ret value => value
  | _ => none

namespace Function

def blockCalls (f : Function) : List (List Operation) :=
  f.blocks.map fun block => callsOf block.instructions

def calls (f : Function) : List Operation := f.blockCalls.flatten

def results (f : Function) : List Operand := f.blocks.filterMap (·.terminator.result?)

end Function

/-- A function that has been called, with the arguments that its caller passed. -/
structure Frame where
  function : Function
  args : List Operand

/-- The frames of a function that is not called: nothing is known of its parameters. -/
abbrev Function.alone (f : Function) : List Frame := [⟨f, []⟩]

/-- Whether the call can be inlined. -/
def Frame.Fits (frame : Frame) : Prop :=
  frame.function.isVarArg = false ∧ frame.args.length = frame.function.parameters.length

/-- The function that an operand is known to be in the first of the frames, where each
frame was called from the one behind it. Only functions with the given bodies are
looked into. -/
inductive Known (bodies : FunctionId → Option Function) :
    List Frame → Operand → FunctionId → Prop where
  | const {frames : List Frame} {id : FunctionId} : Known bodies frames (.const (.function id)) id
  | argument {frame : Frame} {below : List Frame} {x : ValueId} {arg : Operand} {id : FunctionId}
      (harg : (x, arg) ∈ frame.function.parameters.zip frame.args)
      (hknown : Known bodies below arg id) : Known bodies (frame :: below) (.var x) id
  | result {frame : Frame} {below : List Frame} {x : ValueId} {ty : Ty} {callee value : Operand}
      {args : List Operand} {target id : FunctionId} {g : Function}
      (hcall : .call (some x) ty callee args ∈ frame.function.calls)
      (hcallee : Known bodies (frame :: below) callee target) (hbody : bodies target = some g)
      (hvalue : g.results = [value])
      (hknown : Known bodies (⟨g, args⟩ :: frame :: below) value id) :
      Known bodies (frame :: below) (.var x) id

/-- The same, with a bound on how many results of calls are looked into. -/
inductive KnownIn (bodies : FunctionId → Option Function) :
    Nat → List Frame → Operand → FunctionId → Prop where
  | const {n : Nat} {frames : List Frame} {id : FunctionId} :
      KnownIn bodies n frames (.const (.function id)) id
  | argument {n : Nat} {frame : Frame} {below : List Frame} {x : ValueId} {arg : Operand}
      {id : FunctionId} (harg : (x, arg) ∈ frame.function.parameters.zip frame.args)
      (hknown : KnownIn bodies n below arg id) : KnownIn bodies n (frame :: below) (.var x) id
  | result {n j k : Nat} {frame : Frame} {below : List Frame} {x : ValueId} {ty : Ty}
      {callee value : Operand} {args : List Operand} {target id : FunctionId} {g : Function}
      (hcall : .call (some x) ty callee args ∈ frame.function.calls)
      (hcallee : KnownIn bodies j (frame :: below) callee target) (hbody : bodies target = some g)
      (hvalue : g.results = [value])
      (hknown : KnownIn bodies k (⟨g, args⟩ :: frame :: below) value id) (hbound : j + k < n) :
      KnownIn bodies n (frame :: below) (.var x) id

/-- The call is one of a function that is known and has a body: it is the first of the
next frames. -/
inductive Leads (bodies : FunctionId → Option Function) (frames : List Frame) :
    Operation → List Frame → Prop where
  | intro {dest : Option ValueId} {ty : Ty} {callee : Operand} {args : List Operand}
      {target : FunctionId} {g : Function} (hcallee : Known bodies frames callee target)
      (hbody : bodies target = some g) :
      Leads bodies frames (.call dest ty callee args) (⟨g, args⟩ :: frames)

/-- The operation is a direct call of a function that has a body. -/
def DirectCall (bodies : FunctionId → Option Function) (op : Operation) : Prop :=
  ∃ target g, op.directCallee? = some target ∧ bodies target = some g

/-- A call of the function and what it is known to call, with a bound on how many results
are looked into. It stands at the end of a row of calls, each of which calls the result
of the one before it; the first of them is direct. -/
inductive ResolvesBy (bodies : FunctionId → Option Function) (f : Function) (first : Operation) :
    Nat → Operation → FunctionId → Prop where
  | direct {n : Nat} {dest : Option ValueId} {ty : Ty} {args : List Operand} {id : FunctionId}
      (hfirst : first = .call dest ty (.const (.function id)) args) (hmem : first ∈ f.calls) :
      ResolvesBy bodies f first n first id
  | after {n j k : Nat} {x : ValueId} {dest : Option ValueId} {ty ty' : Ty}
      {callee value : Operand} {args args' : List Operand} {target id : FunctionId} {g : Function}
      (hcallee : ResolvesBy bodies f first j (.call (some x) ty callee args) target)
      (hbody : bodies target = some g) (hvalue : g.results = [value])
      (hknown : KnownIn bodies k (⟨g, args⟩ :: f.alone) value id)
      (hmem : .call dest ty' (.var x) args' ∈ f.calls) (hbound : j + k < n) :
      ResolvesBy bodies f first n (.call dest ty' (.var x) args') id

/-- Some call of the first frame leads to the next frames. -/
inductive Enters (bodies : FunctionId → Option Function) : List Frame → List Frame → Prop where
  | intro {frame : Frame} {below next : List Frame} {op : Operation}
      (hcall : op ∈ frame.function.calls) (hleads : Leads bodies (frame :: below) op next) :
      Enters bodies (frame :: below) next

/-- No chain of calls from the frames has more than the given length. -/
def ChainsWithin (bodies : FunctionId → Option Function) : Nat → List Frame → Prop
  | 0, frames => ∀ next, ¬Enters bodies frames next
  | n + 1, frames => ∀ next, Enters bodies frames next → ChainsWithin bodies n next

/-- Some chain of calls from the frames, of the given length, ends with a call that
cannot be inlined. -/
def MisfitAfter (bodies : FunctionId → Option Function) : Nat → List Frame → Prop
  | 0, [] => False
  | 0, frame :: _ => ¬frame.Fits
  | n + 1, frames => ∃ next, Enters bodies frames next ∧ MisfitAfter bodies n next

section

variable {frames next : List Frame} {o : Operand} {id : FunctionId} {k : Nat}

theorem KnownIn.mono (h : KnownIn bodies n frames o id) (hle : n ≤ k) :
    KnownIn bodies k frames o id := by
  induction h with
  | const => exact .const
  | argument harg _ ih => exact .argument harg (ih hle)
  | result hcall hcallee hbody hvalue hknown hbound _ _ =>
      exact .result hcall hcallee hbody hvalue hknown (Nat.lt_of_lt_of_le hbound hle)

/-- What is known within a bound is known. -/
theorem KnownIn.known (h : KnownIn bodies n frames o id) : Known bodies frames o id := by
  induction h with
  | const => exact .const
  | argument harg _ ih => exact .argument harg ih
  | result hcall _ hbody hvalue _ _ ihcallee ihknown =>
      exact .result hcall ihcallee hbody hvalue ihknown

/-- What is known is known within some bound. -/
theorem Known.exists_bound (h : Known bodies frames o id) : ∃ n, KnownIn bodies n frames o id := by
  induction h with
  | const => exact ⟨0, .const⟩
  | argument harg _ ih =>
      obtain ⟨n, hknown⟩ := ih
      exact ⟨n, .argument harg hknown⟩
  | result hcall _ hbody hvalue _ ihcallee ihknown =>
      obtain ⟨j, hcallee⟩ := ihcallee
      obtain ⟨k, hknown⟩ := ihknown
      exact ⟨j + k + 1, .result hcall hcallee hbody hvalue hknown (Nat.lt_succ_self _)⟩

theorem ChainsWithin.exists_of_enters (h : ChainsWithin bodies n frames)
    (henters : Enters bodies frames next) : ∃ k, n = k + 1 ∧ ChainsWithin bodies k next := by
  cases n with
  | zero => exact absurd henters (h next)
  | succ k => exact ⟨k, rfl, h next henters⟩

/-- A bound on the chains behind each call gives one on the chains. -/
theorem chainsWithin_of_forall (h : ∀ next, Enters bodies frames next →
    ∃ k, n = k + 1 ∧ ChainsWithin bodies k next) : ChainsWithin bodies n frames := by
  cases n with
  | zero =>
      intro next henters
      obtain ⟨k, hk, _⟩ := h next henters
      exact absurd hk (Nat.succ_ne_zero k).symm
  | succ n =>
      intro next henters
      obtain ⟨k, hk, hchains⟩ := h next henters
      exact Nat.succ.inj hk ▸ hchains

end

theorem ChainsWithin.mono {k : Nat} {frames : List Frame} (h : ChainsWithin bodies n frames)
    (hle : n ≤ k) : ChainsWithin bodies k frames := by
  induction n generalizing k frames with
  | zero =>
      cases k with
      | zero => exact h
      | succ k => exact fun next henters => absurd henters (h next)
  | succ n ih =>
      cases k with
      | zero => exact absurd hle (Nat.not_succ_le_zero n)
      | succ k => exact fun next henters => ih (h next henters) (Nat.le_of_succ_le_succ hle)

/-- A call whose callee is known stands at the end of a row of calls. -/
theorem KnownIn.exists_resolvesBy {dest : Option ValueId} {ty : Ty} {callee : Operand}
    {args : List Operand} {id : FunctionId} (h : KnownIn bodies n f.alone callee id)
    (hcall : .call dest ty callee args ∈ f.calls) :
    ∃ first, ResolvesBy bodies f first n (.call dest ty callee args) id := by
  generalize hframes : f.alone = frames at h
  induction h generalizing dest ty args with
  | const => exact ⟨_, .direct rfl hcall⟩
  | argument harg =>
      obtain ⟨rfl, rfl⟩ := List.cons.inj hframes
      rw [List.zip_nil_right] at harg
      cases harg
  | result hcall' _ hbody hvalue hknown hbound ihcallee _ =>
      obtain ⟨rfl, rfl⟩ := List.cons.inj hframes
      obtain ⟨first, hfirst⟩ := ihcallee hcall' rfl
      exact ⟨first, .after hfirst hbody hvalue hknown hcall hbound⟩

/-- The first call of a row is direct. -/
theorem ResolvesBy.directCall {g : Function} {first op : Operation} {id : FunctionId}
    (h : ResolvesBy bodies f first n op id) (hbody : bodies id = some g) :
    first ∈ f.calls ∧ DirectCall bodies first := by
  induction h generalizing g with
  | direct hfirst hmem => exact ⟨hmem, _, g, hfirst ▸ rfl, hbody⟩
  | after _ hbody' _ _ _ _ ih => exact ih hbody'

/-- As long as any function is entered, some direct call is left. -/
theorem Enters.exists_directCall {next : List Frame} (h : Enters bodies f.alone next) :
    ∃ op ∈ f.calls, DirectCall bodies op := by
  obtain ⟨hcall, hcallee, hbody⟩ := h
  obtain ⟨n, hknown⟩ := hcallee.exists_bound
  obtain ⟨first, hfirst⟩ := hknown.exists_resolvesBy hcall
  exact ⟨first, hfirst.directCall hbody⟩

end Monolith

import Mathlib.Data.List.Induction
import Monolith.Function.Builder
import Monolith.Proofs.Module.Census
import Monolith.Proofs.Verify.DefectChecks
import Monolith.Proofs.Verify.WellFormed

/-! # Functions made with a builder

A parameter and a result get a variable that is recorded for them, and its number is not given
out again. So a function is consistent however it is built: in which order, in which blocks and
with which operands. Where the builder is at no block of the function, an instruction is dropped
and its result stays recorded, so there may be variables that are not defined, but there are
none that are defined twice.
-/

namespace Monolith

variable {edits : List Edit} {x : ValueId}

namespace Function

def RecordsType (f : Function) (i : Instruction) : Prop :=
  ∀ x, i.op.dest? = some x → f.valueType? x = i.op.resultType?

/-- Parameters and results are recorded, none of them is defined twice, and the results are
recorded with their types. -/
structure Consistent (f : Function) : Prop where
  recorded : ∀ x ∈ f.defined, x < f.values.length
  nodup : f.defined.Nodup
  typed : ∀ i ∈ f.instructions, f.RecordsType i

theorem defined_eq (f : Function) : f.defined = f.parameters ++ defsOf f.instructions := by
  rw [defined, instructions, defsOf, List.filterMap_flatMap]
  rfl

theorem consistent_define (name : String) (returnType : Ty) :
    (define name returnType).Consistent where
  recorded x hx := by cases hx
  nodup := List.nodup_nil
  typed i hi := by cases hi

/-- Variables that are recorded keep their types when more are recorded. -/
theorem RecordsType.of_values {f g : Function} {i : Instruction} {new : List ValueInfo}
    (h : f.RecordsType i) (hvalues : g.values = f.values ++ new)
    (hrecorded : ∀ x, i.op.dest? = some x → x < f.values.length) : g.RecordsType i := by
  intro x hx
  rw [← h x hx, valueType?, hvalues, List.getElem?_append_left (hrecorded x hx)]
  rfl

end Function

namespace Builder

/-! ## Edits -/

/-- What is done to a function while it is built. A restart takes a new builder, which is at the
entry, and jumps, branches and returns terminate a block. The variables that are read and the
blocks that are named need not exist. -/
inductive Edit where
  | restart
  | addParameter (ty : Ty) (name : Option String)
  | createBlock (name : String)
  | switchTo (block : BlockId)
  | alloca (ty : Ty) (name : Option String)
  | load (ty : Ty) (address : Operand)
  | store (value address : Operand)
  | elementPtr (source : Ty) (base : Operand) (indices : List Operand)
  | binary (op : BinaryOp) (ty : Ty) (lhs rhs : Operand)
  | compare (predicate : Predicate) (lhs rhs : Operand)
  | cast (op : CastOp) (value : Operand) (ty : Ty)
  | call (returnType : Ty) (callee : Operand) (args : List Operand)
  | phi (ty : Ty) (incoming : List (Operand × BlockId))
  | terminate (terminator : Terminator)

/-- The builder after an edit. Only terminating a block that does not exist fails. -/
def edit (b : Builder) : Edit → Except Fault Builder
  | .restart => .ok (start b.function)
  | .addParameter ty name => .ok { b with function := (b.function.addParameter ty name).1 }
  | .createBlock name => .ok (b.createBlock name).1
  | .switchTo block => .ok (b.switchTo block)
  | .alloca ty name => .ok (b.alloca ty name).1
  | .load ty address => .ok (b.load ty address).1
  | .store value address => .ok (b.store value address)
  | .elementPtr source base indices => .ok (b.elementPtr source base indices).1
  | .binary op ty lhs rhs => .ok (b.binary op ty lhs rhs).1
  | .compare predicate lhs rhs => .ok (b.compare predicate lhs rhs).1
  | .cast op value ty => .ok (b.cast op value ty).1
  | .call returnType callee args => .ok (b.call returnType callee args).1
  | .phi ty incoming => .ok (b.phi ty incoming).1
  | .terminate terminator => b.terminate terminator

def edited (b : Builder) (edits : List Edit) : Except Fault Builder := edits.foldlM edit b

theorem edited_append_singleton {b last : Builder} {e : Edit} :
    b.edited (edits ++ [e]) = .ok last ↔
      ∃ before, b.edited edits = .ok before ∧ before.edit e = .ok last := by
  rw [edited, List.foldlM_append, bind_eq_ok]
  refine exists_congr fun before => and_congr_right fun _ => ?_
  rw [List.foldlM_cons, bind_eq_ok]
  constructor
  · rintro ⟨next, hnext, hlast⟩
    obtain rfl := Except.ok.inj hlast
    exact hnext
  · exact fun hlast => ⟨last, hlast, rfl⟩

end Builder

/-- The function has been made with a builder from an empty one. -/
def Function.Built (f : Function) : Prop :=
  ∃ name returnType edits b,
    (Builder.start (.define name returnType)).edited edits = .ok b ∧ b.function = f

namespace Builder

variable {b b' : Builder} {g : Function}

/-! ## What an edit does -/

/-- The variables that an edit records and defines: none, or a new one that is defined, or a new
one whose instruction is dropped since there is no block to append it to. -/
inductive Allots (b : Builder) (g : Function) : Prop where
  | none (hvalues : g.values = b.function.values) (hdefined : g.defined.Perm b.function.defined)
  | defined (info : ValueInfo) (hvalues : g.values = b.function.values ++ [info])
      (hdefined : g.defined.Perm (b.function.values.length :: b.function.defined))
  | dropped (info : ValueInfo) (hvalues : g.values = b.function.values ++ [info])
      (hdefined : g.defined = b.function.defined)
      (hmissing : b.function.hasBlock b.current = false)

/-- What an edit leaves behind: it allots a variable or none, and what it appends has a result of
the recorded type. -/
structure Effect (b : Builder) (g : Function) : Prop where
  allots : b.Allots g
  typed : ∀ i ∈ g.instructions, i ∈ b.function.instructions ∨ g.RecordsType i

/-- An edit that leaves the variables and the instructions as they are. -/
theorem Effect.of_eq (hparameters : g.parameters = b.function.parameters)
    (hvalues : g.values = b.function.values)
    (hinstructions : g.instructions = b.function.instructions) : b.Effect g where
  allots := by
    refine .none hvalues (.of_eq ?_)
    rw [g.defined_eq, b.function.defined_eq, hparameters, hinstructions]
  typed i hi := .inl (hinstructions ▸ hi)

theorem append_of_missing (h : b.function.hasBlock b.current = false) (op : Operation) :
    b.append op = b := by
  have hlength : b.function.blocks.length ≤ b.current :=
    Nat.le_of_not_lt (of_decide_eq_false h)
  rw [append, Function.mapBlock, List.modify_eq_self hlength]

/-- An instruction is added where the builder is, if there is a block. -/
theorem instructions_append (h : b.function.hasBlock b.current = true) (op : Operation) :
    (b.append op).function.instructions.Perm ({ op } :: b.function.instructions) := by
  have hlt : b.current < b.function.blocks.length := of_decide_eq_true h
  have hmodify := flatMap_modify_perm (List.getElem?_eq_getElem hlt)
    (·.mapInstructions (· ++ [Instruction.mk op none])) Block.instructions
  -- the old instructions of the block are on both sides
  refine (List.perm_append_right_iff b.function.blocks[b.current].instructions).mp
    (hmodify.trans ?_)
  rw [Block.mapInstructions, ← List.append_assoc, List.cons_append]
  exact List.perm_append_singleton _ _

theorem mem_instructions_append {op : Operation} {i : Instruction}
    (h : i ∈ (b.append op).function.instructions) : i = { op } ∨ i ∈ b.function.instructions := by
  cases hblock : b.function.hasBlock b.current with
  | false =>
      rw [append_of_missing hblock] at h
      exact .inr h
  | true => exact List.mem_cons.mp ((instructions_append hblock op).mem_iff.mp h)

theorem defined_append (h : b.function.hasBlock b.current = true) (op : Operation) :
    (b.append op).function.defined.Perm (op.dest?.toList ++ b.function.defined) := by
  have hdefs := (instructions_append h op).filterMap fun i => i.op.dest?
  rw [← defsOf, ← defsOf, defsOf_cons] at hdefs
  rw [Function.defined_eq, b.function.defined_eq]
  exact (List.Perm.append_left _ hdefs).trans (List.perm_append_comm_assoc _ _ _)

theorem effect_append {op : Operation} (hop : op.dest? = none) :
    b.Effect (b.append op).function := by
  constructor
  case allots =>
    cases hblock : b.function.hasBlock b.current with
    | false =>
        rw [append_of_missing hblock]
        exact .none rfl (.refl _)
    | true =>
        have hdefined := defined_append hblock op
        rw [hop] at hdefined
        exact .none rfl hdefined
  case typed =>
    intro i hi
    rcases mem_instructions_append hi with rfl | hi
    · refine .inr fun x hx => ?_
      rw [hop] at hx
      cases hx
    · exact .inl hi

/-- A result is recorded with its type, and then the instruction that defines it is appended. -/
theorem effect_result {ty : Ty} {op : ValueId → Operation} {name : Option String}
    (hdest : ∀ x, (op x).dest? = some x) (htype : ∀ x, (op x).resultType? = some ty) :
    b.Effect (b.result ty op name).1.function := by
  let recording : Builder := { b with function := (b.function.addValue ty name).1 }
  change b.Effect (recording.append (op b.function.values.length)).function
  constructor
  case allots =>
    cases hblock : recording.function.hasBlock recording.current with
    | false =>
        rw [append_of_missing hblock]
        exact .dropped ⟨ty, name⟩ rfl rfl hblock
    | true =>
        have hdefined := defined_append hblock (op b.function.values.length)
        rw [hdest] at hdefined
        exact .defined ⟨ty, name⟩ rfl hdefined
  case typed =>
    intro i hi
    rcases mem_instructions_append hi with rfl | hi
    · refine .inr fun x hx => ?_
      obtain rfl := Option.some.inj ((hdest _).symm.trans hx)
      rw [htype]
      exact congrArg (Option.map ValueInfo.ty) List.getElem?_concat_length
    · exact .inl hi

theorem effect_addParameter (ty : Ty) (name : Option String) :
    b.Effect (b.function.addParameter ty name).1 where
  allots := by
    refine .defined ⟨ty, name⟩ rfl ?_
    change ((b.function.parameters ++ [b.function.values.length]) ++ _).Perm _
    rw [List.append_assoc]
    exact List.perm_middle
  typed i hi := .inl hi

theorem effect_createBlock (name : String) : b.Effect (b.createBlock name).1.function := by
  refine .of_eq rfl rfl ?_
  change (b.function.blocks ++ [_]).flatMap Block.instructions = _
  rw [List.flatMap_append]
  exact List.append_nil _

theorem effect_terminate {terminator : Terminator} (h : b.terminate terminator = .ok b') :
    b.Effect b'.function := by
  obtain ⟨f, hf, h⟩ := bind_eq_ok.mp h
  obtain rfl := Except.ok.inj h
  obtain ⟨_, _, hf⟩ := bind_eq_ok.mp hf
  obtain rfl := Except.ok.inj hf
  refine .of_eq rfl rfl ?_
  exact congrArg List.flatten (Function.map_blocks_mapBlock fun _ _ => rfl)

/-- Every edit has such an effect. -/
theorem effect_edit {e : Edit} (h : b.edit e = .ok b') : b.Effect b'.function := by
  cases e with
  | terminate terminator => exact effect_terminate h
  | restart | switchTo =>
      obtain rfl := Except.ok.inj h
      exact .of_eq rfl rfl rfl
  | addParameter ty name =>
      obtain rfl := Except.ok.inj h
      exact effect_addParameter ty name
  | createBlock name =>
      obtain rfl := Except.ok.inj h
      exact effect_createBlock name
  | store =>
      obtain rfl := Except.ok.inj h
      exact effect_append rfl
  | call returnType callee args =>
      obtain rfl := Except.ok.inj h
      unfold call
      split
      next => exact effect_append rfl
      next =>
        change b.Effect
          (b.result returnType fun x => .call (some x) returnType callee args).1.function
        exact effect_result (fun _ => rfl) (fun _ => rfl)
  | alloca | load | elementPtr | binary | compare | cast | phi =>
      obtain rfl := Except.ok.inj h
      exact effect_result (fun _ => rfl) (fun _ => rfl)

/-! ## What is kept -/

theorem Allots.recorded (h : b.Allots g) (hb : b.function.Consistent) :
    ∀ x ∈ g.defined, x < g.values.length := by
  intro x hx
  cases h with
  | none hvalues hdefined =>
      rw [hvalues]
      exact hb.recorded x (hdefined.mem_iff.mp hx)
  | defined info hvalues hdefined =>
      rw [hvalues, List.length_append]
      rcases List.mem_cons.mp (hdefined.mem_iff.mp hx) with rfl | hx
      · exact Nat.lt_succ_self _
      · exact Nat.lt_succ_of_lt (hb.recorded x hx)
  | dropped info hvalues hdefined hmissing =>
      rw [hvalues, List.length_append]
      exact Nat.lt_succ_of_lt (hb.recorded x (hdefined ▸ hx))

theorem Allots.nodup (h : b.Allots g) (hb : b.function.Consistent) : g.defined.Nodup := by
  cases h with
  | none hvalues hdefined => exact hdefined.nodup_iff.mpr hb.nodup
  | defined info hvalues hdefined =>
      refine hdefined.nodup_iff.mpr (List.nodup_cons.mpr ⟨fun hmem => ?_, hb.nodup⟩)
      exact Nat.lt_irrefl _ (hb.recorded _ hmem)
  | dropped info hvalues hdefined hmissing => exact hdefined ▸ hb.nodup

theorem Allots.exists_values (h : b.Allots g) : ∃ new, g.values = b.function.values ++ new := by
  cases h with
  | none hvalues hdefined => exact ⟨[], by rw [hvalues, List.append_nil]⟩
  | defined info hvalues hdefined => exact ⟨[info], hvalues⟩
  | dropped info hvalues hdefined hmissing => exact ⟨[info], hvalues⟩

/-- One edit keeps a function consistent. -/
theorem Effect.consistent (h : b.Effect g) (hb : b.function.Consistent) : g.Consistent where
  recorded := h.allots.recorded hb
  nodup := h.allots.nodup hb
  typed i hi := by
    rcases h.typed i hi with hold | hnew
    · obtain ⟨new, hvalues⟩ := h.allots.exists_values
      refine (hb.typed i hold).of_values hvalues fun x hx => hb.recorded x ?_
      rw [Function.defined_eq]
      exact List.mem_append_right _ (mem_defsOf.mpr ⟨i, hold, hx⟩)
    · exact hnew

/-- Any edits keep a function consistent. -/
theorem consistent_edited (hb : b.function.Consistent) (h : b.edited edits = .ok b') :
    b'.function.Consistent :=
  foldlM_induction (fun b => b.function.Consistent)
    (fun _ _ _ _ hb hedit => (effect_edit hedit).consistent hb) hb h

/-! ## Variables that are not defined -/

/-- The variable was recorded while the builder was at no block of the function. -/
def RecordedOutside (b : Builder) (edits : List Edit) (x : ValueId) : Prop :=
  ∃ front e rest before after, edits = front ++ e :: rest ∧ b.edited front = .ok before ∧
    before.edit e = .ok after ∧ before.function.hasBlock before.current = false ∧
    before.function.values.length = x ∧ x < after.function.values.length

theorem RecordedOutside.append (h : b.RecordedOutside edits x) (more : List Edit) :
    b.RecordedOutside (edits ++ more) x := by
  obtain ⟨front, e, rest, before, after, rfl, h⟩ := h
  exact ⟨front, e, rest ++ more, before, after, by simp, h⟩

theorem Allots.mem_defined (h : b.Allots g) (hx : x ∈ b.function.defined) : x ∈ g.defined := by
  cases h with
  | none hvalues hdefined => exact hdefined.mem_iff.mpr hx
  | defined info hvalues hdefined => exact hdefined.mem_iff.mpr (List.mem_cons_of_mem _ hx)
  | dropped info hvalues hdefined hmissing => exact hdefined ▸ hx

/-- What an edit records without defining it is recorded at no block. -/
theorem Allots.missing_of_not_mem (h : b.Allots g) (hx : x < g.values.length)
    (hnew : ¬x < b.function.values.length) (hnot : x ∉ g.defined) :
    b.function.values.length = x ∧ b.function.hasBlock b.current = false := by
  have hlast : ∀ info, g.values = b.function.values ++ [info] → b.function.values.length = x := by
    intro info hvalues
    rw [hvalues, List.length_append] at hx
    exact Nat.le_antisymm (Nat.le_of_not_lt hnew) (Nat.le_of_lt_succ hx)
  cases h with
  | none hvalues hdefined => exact absurd (hvalues ▸ hx) hnew
  | defined info hvalues hdefined =>
      obtain rfl := hlast info hvalues
      exact absurd (hdefined.mem_iff.mpr List.mem_cons_self) hnot
  | dropped info hvalues hdefined hmissing => exact ⟨hlast info hvalues, hmissing⟩

theorem recordedOutside_of_not_mem_defined (h : b.edited edits = .ok b')
    (hx : x < b'.function.values.length) (hnot : x ∉ b'.function.defined) :
    x < b.function.values.length ∨ b.RecordedOutside edits x := by
  -- edits are taken from the end, so that the edit which recorded the variable is the last one
  induction edits using List.reverseRecOn generalizing b' with
  | nil =>
      obtain rfl := Except.ok.inj h
      exact .inl hx
  | append_singleton edits e ih =>
      obtain ⟨before, hbefore, he⟩ := edited_append_singleton.mp h
      have hallots := (effect_edit he).allots
      by_cases hold : x < before.function.values.length
      · exact (ih hbefore hold fun hmem => hnot (hallots.mem_defined hmem)).imp_right
          fun houtside => houtside.append [e]
      · obtain ⟨hlength, hmissing⟩ := hallots.missing_of_not_mem hx hold hnot
        exact .inr ⟨edits, e, [], before, b', rfl, hbefore, he, hmissing, hlength, hx⟩

end Builder

/-! ## Functions that are built -/

namespace Function

variable {f : Function}

/-- A function that is made with a builder is consistent. -/
theorem Built.consistent (h : f.Built) : f.Consistent := by
  obtain ⟨name, returnType, edits, b, hb, rfl⟩ := h
  exact Builder.consistent_edited (consistent_define name returnType) hb

theorem Consistent.not_mem_repeats (h : f.Consistent) (x : ValueId) :
    x ∉ repeats (f.definitions.map Prod.fst) := by
  rw [f.definitions_map_fst, repeats_eq_nil_iff.mpr h.nodup]
  exact List.not_mem_nil

end Function

/-- However a function is built, its parameters and the results of its instructions are recorded,
none of them is defined twice, and the results are recorded with their types. So verifying any
module reports no repeated definition for the function, and if one is reported for its name,
there is another function with this name, which was not built. A variable that is recorded and
not defined was recorded while the builder was at no block. -/
theorem Builder.built_functions_consistent {name : String} {returnType : Ty} {edits : List Edit}
    {b : Builder} (h : (start (.define name returnType)).edited edits = .ok b) :
    b.function.Consistent ∧
    (∀ (m : Module) other x, .multipleDefinitions other x ∉ m.functionDefects b.function) ∧
    (∀ (m : Module) x, .multipleDefinitions b.function.name x ∈ m.defects →
      ∃ id g, m.function? id = some g ∧ g.name = b.function.name ∧ ¬g.Built) ∧
    (∀ x < b.function.values.length, x ∉ b.function.defined →
      (start (.define name returnType)).RecordedOutside edits x) := by
  have hconsistent := consistent_edited (Function.consistent_define name returnType) h
  refine ⟨hconsistent, fun m other x hmem => ?_, fun m x hmem => ?_, fun x hx hnot => ?_⟩
  · exact hconsistent.not_mem_repeats x (Module.mem_repeats_of_mem_functionDefects hmem).2
  · obtain ⟨id, g, hg, hname, hx⟩ := Module.exists_repeats_of_mem_defects hmem
    exact ⟨id, g, hg, hname, fun hbuilt => hbuilt.consistent.not_mem_repeats x hx⟩
  · exact (recordedOutside_of_not_mem_defined h hx hnot).resolve_left (Nat.not_lt_zero x)

/-- A parameter is added late, a call has no result, and a load is dropped at a block that does
not exist. -/
def Builder.patchwork : List Edit :=
  [.addParameter (.int 32) (some "n"), .alloca (.int 32) (some "slot"), .store (.var 0) (.var 1),
    .createBlock "done", .load (.int 32) (.var 1), .compare .sgt (.var 2) (.i32 0),
    .call .void (.const .null) [], .terminate (.branch (.var 3) 1 1), .switchTo 7,
    .load .ptr (.var 1), .addParameter .ptr none, .switchTo 1, .phi (.int 32) [(.var 2, 0)],
    .call (.int 32) (.var 5) [.var 6], .terminate (.ret (some (.var 7)))]

theorem Builder.patchwork_consistent :
    ∃ b, (start (.define "count" (.int 32))).edited patchwork = .ok b ∧
      b.function.defined = [0, 5, 1, 2, 3, 6, 7] ∧ b.function.values.length = 8 ∧
      b.function.Consistent ∧ (start (.define "count" (.int 32))).RecordedOutside patchwork 4 := by
  obtain ⟨b, hb, hdefined, hlength⟩ :
      ∃ b, (start (.define "count" (.int 32))).edited patchwork = .ok b ∧
        b.function.defined = [0, 5, 1, 2, 3, 6, 7] ∧ b.function.values.length = 8 :=
    ⟨_, rfl, rfl, rfl⟩
  obtain ⟨hconsistent, _, _, houtside⟩ := built_functions_consistent hb
  refine ⟨b, hb, hdefined, hlength, hconsistent, houtside 4 ?_ ?_⟩
  · rw [hlength]
    decide
  · rw [hdefined]
    decide

end Monolith

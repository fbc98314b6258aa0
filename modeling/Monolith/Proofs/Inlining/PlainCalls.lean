import Monolith.Proofs.Flattening.ExtendedFunctions
import Monolith.Proofs.Inlining.CallTotals
import Monolith.Proofs.Inlining.Calls

/-! # Calls that pass no functions

Where no function is passed to a call or returned, putting a body in place of a call makes no
new direct calls: those of the body are added, and the others stay.
-/

namespace Monolith

def Operation.args : Operation → List Operand
  | .call _ _ _ args => args
  | _ => []

/-- No function is passed to a call or returned. -/
structure Function.FirstOrder (f : Function) : Prop where
  args : ∀ op ∈ f.calls, ∀ o ∈ op.args, o.function? = none
  results : ∀ o ∈ f.results, o.function? = none

def Module.FirstOrder (m : Module) : Prop :=
  ∀ id f, m.function? id = some f → f.FirstOrder

/-- A call that passes no function, and as many arguments as the function it names takes. -/
structure Module.Plain (m : Module) (op : Operation) : Prop where
  args : ∀ o ∈ op.args, o.function? = none
  arity : ∀ id g, op.directCallee? = some id → m.function? id = some g →
    acceptsArity g op.args.length = true

/-- A body that can be inlined into and that has only such calls. -/
structure Module.PlainBody (m : Module) (f : Function) : Prop where
  entry_lt : f.entry < f.blocks.length
  plain : ∀ op ∈ f.calls, m.Plain op

/-! ## Changes of operands that keep functions -/

/-- An operand that is no function is not made one, and functions are kept. -/
def KeepsFunctions (change : Operand → Operand) : Prop :=
  ∀ o, (change o).function? = o.function?

/-- In the copy of a callee, a variable is an argument or another variable. -/
theorem CallSite.operand_renaming_cases (site : CallSite) (f : Function) (x : ValueId) :
    (site.renaming f).operand (.var x) ∈ site.args ∨
      ∃ y, (site.renaming f).operand (.var x) = .var y := by
  cases hlookup : (site.renaming f).values.lookup x with
  | none => exact .inr ⟨x, by simp [Renaming.operand, hlookup]⟩
  | some value =>
      simp only [Renaming.operand, hlookup, Option.getD_some]
      obtain ⟨front, back, hvalues, _⟩ := List.lookup_eq_some_iff.mp hlookup
      have hmem : (x, value) ∈ (site.renaming f).values := by simp [hvalues]
      rcases List.mem_append.mp hmem with hmem | hmem
      · exact .inl (List.of_mem_zip (List.mem_reverse.mp hmem)).2
      · obtain ⟨entry, _, heq⟩ := List.mem_map.mp hmem
        exact .inr ⟨_, (Prod.mk.inj heq).2.symm⟩

theorem CallSite.keepsFunctions_renaming {site : CallSite} (f : Function)
    (hargs : ∀ o ∈ site.args, o.function? = none) :
    KeepsFunctions (site.renaming f).operand := by
  intro o
  cases o with
  | const => rfl
  | var x =>
      rcases site.operand_renaming_cases f x with harg | ⟨y, hy⟩
      · exact hargs _ harg
      · rw [hy]
        rfl

theorem CallSite.keepsFunctions_subst {site : CallSite} {results : List Operand}
    (hresults : ∀ o ∈ results, o.function? = none) : KeepsFunctions (site.subst results) := by
  intro o
  cases o with
  | const c => rw [site.subst_const]
  | var x =>
      rcases site.subst_var_cases results x with hsame | hpoison | hreturned
      · rw [hsame]
      · rw [hpoison]
        rfl
      · exact hresults _ hreturned

namespace Operation

theorem args_mapOperands (change : Operand → Operand) (op : Operation) :
    (op.mapOperands change).args = op.args.map change := by
  cases op <;> rfl

theorem args_mapDest (rename : ValueId → ValueId) (op : Operation) :
    (op.mapDest rename).args = op.args := by
  cases op <;> rfl

end Operation

/-- The change keeps what calls name and what they pass. -/
structure KeepsCalls (change : Operation → Operation) : Prop where
  directCallee? : ∀ op, (change op).directCallee? = op.directCallee?
  plain : ∀ {m : Module} {op}, m.Plain op → m.Plain (change op)

theorem KeepsFunctions.keepsCalls {change : Operand → Operand} (h : KeepsFunctions change) :
    KeepsCalls (Operation.mapOperands change) where
  directCallee? := Operation.directCallee?_mapOperands h
  plain {m op} hplain := by
    refine ⟨fun o ho => ?_, fun id g hid hg => ?_⟩
    · rw [Operation.args_mapOperands] at ho
      obtain ⟨arg, harg, rfl⟩ := List.mem_map.mp ho
      rw [h]
      exact hplain.args arg harg
    · rw [Operation.directCallee?_mapOperands h] at hid
      rw [Operation.args_mapOperands, List.length_map]
      exact hplain.arity id g hid hg

theorem keepsCalls_mapDest (rename : ValueId → ValueId) :
    KeepsCalls (Operation.mapDest rename) where
  directCallee? := Operation.directCallee?_mapDest rename
  plain {m op} hplain := by
    refine ⟨?_, ?_⟩
    · rw [Operation.args_mapDest]
      exact hplain.args
    · rw [Operation.directCallee?_mapDest, Operation.args_mapDest]
      exact hplain.arity

theorem KeepsCalls.comp {first second : Operation → Operation} (hsecond : KeepsCalls second)
    (hfirst : KeepsCalls first) : KeepsCalls (second ∘ first) where
  directCallee? op := (hsecond.directCallee? (first op)).trans (hfirst.directCallee? op)
  plain hplain := hsecond.plain (hfirst.plain hplain)

theorem KeepsCalls.filterMap_map {change : Operation → Operation} (h : KeepsCalls change)
    (ops : List Operation) :
    (ops.map change).filterMap Operation.directCallee? = ops.filterMap Operation.directCallee? := by
  rw [List.filterMap_map]
  exact List.filterMap_congr fun op _ => h.directCallee? op

namespace Function

/-- The calls of the body are those of the caller but the one that is inlined, and those of the
callee. -/
theorem exists_calls_inlineBody {f f' : Function} {site : CallSite} {b : BlockId} {block : Block}
    (hblock : f.block? b = some block) {before after : List Instruction} {i : Instruction}
    (hsplit : block.instructions = before ++ i :: after) (hcall : i.op.isCall = true)
    (h : f.inlineBody site b before.length = .ok f') :
    ∃ rest, f.calls.Perm (i.op :: rest) ∧
      f'.calls = (rest ++ site.callee.calls.map (site.renaming f).call).map
        (Operation.mapOperands
          (site.subst (site.callee.results.map (site.renaming f).operand))) := by
  have hget := blockCalls_of_block? hblock
  rw [hsplit, callsOf_split hcall] at hget
  obtain ⟨hlt, hget⟩ := List.getElem?_eq_some_iff.mp hget
  have hcalls : f.calls = (f.blockCalls.take b).flatten ++
      (callsOf before ++ i.op :: callsOf after ++ (f.blockCalls.drop (b + 1)).flatten) := by
    rw [calls, ← hget, ← List.flatten_cons, ← List.flatten_append, ← List.drop_eq_getElem_cons hlt,
      List.take_append_drop]
  have hresult := congrArg List.flatten (blockCalls_inlineBody hblock h)
  rw [List.set_eq_take_append_cons_drop, if_pos hlt, hsplit, List.take_left,
    List.drop_length_add_append] at hresult
  refine ⟨(f.blockCalls.take b ++ callsOf before :: f.blockCalls.drop (b + 1) ++
    [callsOf after]).flatten, ?_, ?_⟩
  · simp only [hcalls, List.flatten_append, List.flatten_cons, List.flatten_nil, List.append_nil,
      List.append_assoc, List.cons_append]
    -- what stands behind the call has moved to the end
    refine (List.Perm.append_left _ ?_).trans List.perm_middle
    exact List.perm_middle.trans (.cons _ (.append_left _ List.perm_append_comm))
  · rw [calls, hresult, ← List.map_flatten, List.flatten_append, ← List.map_flatten]
    rfl

end Function

/-- Where no function is passed or returned, calls are copied and changed as they are. -/
theorem keepsCalls_of_plain (site : CallSite) (f : Function)
    (hargs : ∀ o ∈ site.args, o.function? = none)
    (hresults : ∀ o ∈ site.callee.results, o.function? = none) :
    KeepsCalls (Operation.mapOperands
      (site.subst (site.callee.results.map (site.renaming f).operand))) ∧
    KeepsCalls (site.renaming f).call := by
  have hrenaming := CallSite.keepsFunctions_renaming f hargs
  refine ⟨(CallSite.keepsFunctions_subst fun o ho => ?_).keepsCalls,
    (keepsCalls_mapDest _).comp hrenaming.keepsCalls⟩
  obtain ⟨value, hvalue, rfl⟩ := List.mem_map.mp ho
  rw [hrenaming]
  exact hresults value hvalue

/-- Inlining a plain call adds the direct calls of the callee. -/
theorem Module.PlainBody.exists_inlineBody {m : Module} {f g : Function} (hf : m.PlainBody f)
    (hg : m.PlainBody g) (hresults : ∀ o ∈ g.results, o.function? = none) {b : BlockId}
    {block : Block} (hblock : f.block? b = some block) {before after : List Instruction}
    {i : Instruction} (hsplit : block.instructions = before ++ i :: after) {dest : Option ValueId}
    {ty : Ty} {id : FunctionId} {args : List Operand}
    (hop : i.op = .call dest ty (.const (.function id)) args) :
    ∃ f' rest, f.inlineBody ⟨dest, ty, g, args⟩ b before.length = .ok f' ∧ m.PlainBody f' ∧
      f'.name = f.name ∧ f.directCallees.Perm (id :: rest) ∧
      f'.directCallees.Perm (rest ++ g.directCallees) := by
  obtain ⟨f', hf', hentry, _⟩ := Function.exists_inlineBody ⟨dest, ty, g, args⟩
    before.length (List.getElem?_eq_some_iff.mp hblock).1 hf.entry_lt hg.entry_lt
  have hcall : i.op.isCall = true := by
    rw [hop]
    rfl
  obtain ⟨rest, hbefore, hafter⟩ := Function.exists_calls_inlineBody hblock hsplit hcall hf'
  have hplain := hf.plain i.op (hbefore.mem_iff.mpr List.mem_cons_self)
  rw [hop] at hplain
  obtain ⟨hsubst, hcopy⟩ := keepsCalls_of_plain ⟨dest, ty, g, args⟩ f hplain.args hresults
  refine ⟨f', rest.filterMap Operation.directCallee?, hf', ⟨hentry, ?_⟩,
    (Function.extends_inlineBody hf').name, ?_, ?_⟩
  · rw [hafter, List.forall_mem_map, List.forall_mem_append, List.forall_mem_map]
    constructor
    · exact fun op hop => hsubst.plain (hf.plain op (hbefore.mem_iff.mpr (.tail _ hop)))
    · exact fun op hop => hsubst.plain (hcopy.plain (hg.plain op hop))
  · rw [Function.directCallees_eq]
    have hcallees := hbefore.filterMap Operation.directCallee?
    rwa [hop] at hcallees
  · rw [Function.directCallees_eq, Function.directCallees_eq, hafter, hsubst.filterMap_map,
      List.filterMap_append, hcopy.filterMap_map]

end Monolith

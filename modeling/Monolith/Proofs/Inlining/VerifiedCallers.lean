import Monolith.Proofs.Inlining.Form
import Monolith.Proofs.Module.Census
import Monolith.Proofs.Verify.VerifiedModule

/-! # Inlining in verified modules

A call in a verified module can be inlined, and the module keeps its form: the only
defects that the result can have are those of operands that were passed as arguments
or returned, and now stand where an address or a function is needed.
-/

namespace Monolith

/-- The defect of an operand that is used as an address or called. -/
def Defect.isOfUse : Defect → Bool
  | .poisonCallee .. => true
  | .arityMismatch .. => true
  | .nonPointerAddress .. => true
  | _ => false

theorem Defect.isOfUse_iff {d : Defect} : d.isOfUse = true ↔ d.check = .operations := by
  cases d <;> simp [isOfUse, check]

namespace Module

theorem resolves_poison (m : Module) (ty : Ty) : m.Resolves (.poison ty) := by
  constructor <;> intro id hid <;> cases hid

/-- A well-formed body that refers only to what the module holds has at most defects of
the use of its operands. -/
theorem isOfUse_of_functionDefects {m : Module} {f : Function} (hform : f.WellFormed)
    (hresolves : ∀ b done c, f.Reads b done (.const c) → m.Resolves c) {d : Defect}
    (hd : d ∈ m.functionDefects f) : d.isOfUse = true := by
  rw [functionDefects_of_wellFormed m hform] at hd
  obtain ⟨⟨block, b⟩, hblock, hd⟩ := List.mem_flatMap.mp hd
  have hb : f.block? b = some block := List.mem_zipIdx_iff_getElem?.mp hblock
  rcases mem_blockDefects_iff.mp hd with ⟨c, hc, hd⟩ | ⟨i, _, hd⟩
  · obtain ⟨a, done, hreads⟩ := exists_reads hb hc
    rw [referenceDefects_eq_nil_iff.mpr (hresolves a done c hreads)] at hd
    cases hd
  · exact Defect.isOfUse_iff.mpr (check_of_mem_operationDefects hd)

/-- A direct call of a function with a body and a fixed number of parameters. -/
structure CallAt (m : Module) (caller : FunctionId) (b : BlockId) (index : Nat)
    (callee : FunctionId) (f : Function) (site : CallSite) : Prop where
  caller_eq : m.function? caller = some f
  call : ∃ block i, f.block? b = some block ∧ block.instructions[index]? = some i ∧
    i.op = .call site.dest site.returnType (.const (.function callee)) site.args
  callee_eq : m.function? callee = some site.callee
  callee_body : site.callee.isDeclaration = false
  fixed : site.callee.isVarArg = false

namespace CallAt

variable {m : Module} {caller callee : FunctionId} {b : BlockId} {index : Nat} {f : Function}
  {site : CallSite} (hcall : m.CallAt caller b index callee f site)

include hcall

theorem caller_body : f.isDeclaration = false := by
  obtain ⟨block, _, hblock, _⟩ := hcall.call
  have hmem := List.mem_of_getElem? hblock
  cases hblocks : f.blocks with
  | nil => simp [hblocks] at hmem
  | cons _ _ => simp [Function.isDeclaration, hblocks]

theorem callSite?_eq : Function.callSite? m f b index = some site := by
  obtain ⟨block, i, hblock, hi, hop⟩ := hcall.call
  simp only [Function.callSite?, hblock, Option.bind_eq_bind, Option.bind_some, hi, hop]
  simp [Operand.function?, Constant.function?, hcall.callee_eq, hcall.callee_body]

theorem arity (hverified : m.defects = []) :
    site.args.length = site.callee.parameters.length := by
  obtain ⟨block, i, hblock, hi, hop⟩ := hcall.call
  have hdefects := (defects_eq_nil_iff.mp hverified).2.2.2.2 _ _ hcall.caller_eq
  have haccepts := acceptsArity_of_call hcall.caller_body hdefects hblock
    (List.mem_of_getElem? hi) hop hcall.callee_eq
  simpa [acceptsArity, hcall.fixed] using haccepts

/-- The call as an inlining between well-formed bodies. -/
theorem exists_inlining (hverified : m.defects = [])
    (hrecorded : ∀ x ∈ f.defined, x < f.values.length)
    (hcalleeRecorded : ∀ x ∈ site.callee.defined, x < site.callee.values.length)
    (hphi : ∀ i ∈ site.callee.body site.callee.entry, i.op.isPhi = false)
    (hreturns : site.dest.isSome = true → site.callee.ReturnsAgree) :
    ∃ inl : SoundInlining, inl.caller = f ∧ inl.site = site ∧
      inl.target = .const (.function callee) ∧
      m.inlineCall caller b index = .ok (some (m.setFunction caller inl.result)) := by
  have hdefects := (defects_eq_nil_iff.mp hverified).2.2.2.2
  obtain ⟨block, i, hblock, hi, hop⟩ := hcall.call
  have hcaller := wellFormed_of_functionDefects hcall.caller_body (hdefects _ _ hcall.caller_eq)
  have hcallee := wellFormed_of_functionDefects hcall.callee_body (hdefects _ _ hcall.callee_eq)
  obtain ⟨inl, rfl, rfl, htarget, hbody⟩ :=
    Inlining.exists_of_call hblock hi hop hcaller.wellShaped hcallee.wellShaped
  refine ⟨{
    toInlining := inl
    wellFormed := hcaller
    callee_wellFormed := hcallee
    recorded := hrecorded
    callee_recorded := hcalleeRecorded
    arity := hcall.arity hverified
    entry_not_phi := hphi
    returns_agree := hreturns }, rfl, rfl, htarget, ?_⟩
  exact inlineCall_eq_ok hcall.caller_eq hcall.callSite?_eq hcall.fixed (hcall.arity hverified)
    hbody

end CallAt

end Module

namespace SoundInlining

open Inlining

variable (inl : SoundInlining) {m : Module}
  (hcaller : ∀ b done c, inl.caller.Reads b done (.const c) → m.Resolves c)
  (hcallee : ∀ b done c, inl.callee.Reads b done (.const c) → m.Resolves c)

include hcaller hcallee

theorem operand_resolves {b : BlockId} {passed : List Instruction} {o : Operand} {c : Constant}
    (hreads : inl.callee.Reads b passed o) (h : inl.names.operand o = .const c) : m.Resolves c := by
  cases o with
  | const value =>
      obtain rfl := Operand.const.inj h
      exact hcallee _ _ _ hreads
  | var x =>
      have hdefined := inl.callee_wellFormed.reads_defined b passed x hreads
      by_cases hx : x ∈ inl.callee.parameters
      · have harg := inl.copies.operand_mem_args hx
        rw [h] at harg
        exact hcaller _ _ _ (inl.reads_arg harg)
      · rw [inl.copies.operand_inner hx (inl.callee_recorded x hdefined)] at h
        cases h

/-- The result refers only to what the caller and the callee refer to. -/
theorem result_resolves (hargs : ∀ d, inl.site.dest = some d → .var d ∉ inl.site.args)
    {b : BlockId} {done : List Instruction} {c : Constant}
    (hreads : inl.result.Reads b done (.const c)) : m.Resolves c := by
  rcases inl.origin_of_reads hreads with
    ⟨a, passed, o, hreads, heq, _⟩ | ⟨a, passed, o, hreads, heq, _⟩
  · cases o with
    | const value =>
        rw [subst_const] at heq
        obtain rfl := Operand.const.inj heq
        exact hcaller _ _ _ hreads
    | var x =>
        by_cases hd : inl.site.dest = some x
        · rcases inl.subst_dest hd with ⟨hsame, _⟩ | ⟨hpoison, _⟩ |
            ⟨value, source, hvalue, hreturned⟩
          · rw [hsame] at heq
            cases heq
          · rw [hpoison] at heq
            obtain rfl := Operand.const.inj heq
            exact Module.resolves_poison m _
          · rw [hvalue] at heq
            have hmem : (value, source) ∈ inl.returned := by simp [hreturned]
            obtain ⟨e, done, returned, hreturns, hrenamed⟩ := inl.reads_returned hmem
            rw [← heq] at hrenamed
            exact inl.operand_resolves hcaller hcallee hreturns hrenamed
        · rw [inl.subst_var_of_ne hd] at heq
          cases heq
  · cases hrenamed : inl.names.operand o with
    | const value =>
        rw [hrenamed, subst_const] at heq
        obtain rfl := Operand.const.inj heq
        exact inl.operand_resolves hcaller hcallee hreads hrenamed
    | var y =>
        rw [hrenamed, inl.subst_var_of_ne (inl.operand_ne_dest hargs hreads hrenamed)] at heq
        cases heq

end SoundInlining

namespace Module

/-- In a verified module, a direct call of a function with a body can be inlined, and
the result has at most defects of the use of operands. -/
theorem inlineCall_keeps_form {m : Module} {caller callee : FunctionId} {b : BlockId} {index : Nat}
    {f : Function} {site : CallSite} (hverified : m.defects = [])
    (hcall : m.CallAt caller b index callee f site)
    (hrecorded : ∀ x ∈ f.defined, x < f.values.length)
    (hcalleeRecorded : ∀ x ∈ site.callee.defined, x < site.callee.values.length)
    (hphi : ∀ i ∈ site.callee.body site.callee.entry, i.op.isPhi = false)
    (hreturns : site.dest.isSome = true → site.callee.ReturnsAgree)
    (hargs : ∀ d, site.dest = some d → .var d ∉ site.args) :
    ∃ n, m.inlineCall caller b index = .ok (some n) ∧ ∀ d ∈ n.defects, d.isOfUse = true := by
  obtain ⟨inl, rfl, rfl, _, hinlined⟩ :=
    hcall.exists_inlining hverified hrecorded hcalleeRecorded hphi hreturns
  have hdefects := (defects_eq_nil_iff.mp hverified).2.2.2.2
  have hresolves : ∀ b done c, inl.result.Reads b done (.const c) → m.Resolves c := by
    intro b done c hreads
    refine inl.result_resolves ?_ ?_ hargs hreads
    · exact fun _ _ _ => resolves_of_reads hcall.caller_body (hdefects _ _ hcall.caller_eq)
    · exact fun _ _ _ => resolves_of_reads hcall.callee_body (hdefects _ _ hcall.callee_eq)
  refine ⟨m.setFunction caller inl.result, hinlined, fun d hd => ?_⟩
  have hsignature : inl.result.signature = inl.caller.signature := rfl
  exact isOfUse_of_functionDefects (inl.result_wellFormed hargs) hresolves
    (mem_defects_setFunction hcall.caller_eq hsignature hverified hd)

def loop : Function where
  name := "loop"
  returnType := .int 32
  blocks := [
    { terminator := .jump 1 },
    { instructions := [
        { op := .phi 0 (.int 32) [(.i32 7, 0), (.var 1, 1)] },
        { op := .call (some 1) (.int 32) (.const (.function 1)) [.var 0] }]
      terminator := .branch (.var 1) 1 2 },
    { terminator := .ret (some (.var 1)) }]
  values := [{ ty := .int 32 }, { ty := .int 32 }]

def choice : Function where
  name := "choice"
  returnType := .int 32
  parameters := [0]
  blocks := [
    { instructions := [{ op := .alloca 1 (.int 32) 4 0 }]
      terminator := .branch (.var 0) 1 2 },
    { terminator := .ret (some (.var 0)) },
    { instructions := [{ op := .load 2 (.int 32) (.var 1) 4 }]
      terminator := .ret (some (.var 2)) }]
  values := [{ ty := .int 32 }, { ty := .ptr }, { ty := .int 32 }]

def loopModule : Module where
  name := "loop"
  functions := [some loop, some choice]

/-- The block of the call follows itself, the callee returns at two places, and its
alloca moves to the entry. -/
theorem inlineCall_loop_keeps_form :
    loopModule.defects = [] ∧ ∃ n, loopModule.inlineCall 0 1 1 = .ok (some n) ∧
      ∀ d ∈ n.defects, d.isOfUse = true := by
  have hverified : loopModule.defects = [] := by decide +kernel
  have hcall : loopModule.CallAt 0 1 1 1 loop
      { dest := some 1, returnType := .int 32, callee := choice, args := [.var 0] } :=
    ⟨rfl, ⟨_, _, rfl, rfl, rfl⟩, rfl, rfl, rfl⟩
  refine ⟨hverified, inlineCall_keeps_form hverified hcall (by decide) (by decide) (by decide)
    (fun _ => .inl (by decide)) ?_⟩
  rintro d ⟨⟩
  decide

end Module

end Monolith

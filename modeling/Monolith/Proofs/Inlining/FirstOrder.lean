import Monolith.Proofs.Inlining.Ends
import Monolith.Proofs.Inlining.PlainCalls

/-! # Inlining without functions as values

Where no function is passed to a call or returned, the number of calls that are inlined and the
calls that are left can be read off the call graph: each call counts once for every chain of
calls that leads to it.
-/

namespace Monolith

/-! ## One call -/

namespace Module

theorem setFunction_setFunction (m : Module) (id : FunctionId) (f g : Function) :
    (m.setFunction id f).setFunction id g = m.setFunction id g := by
  simp only [setFunction, updateFunction, Arena.update, List.modify_modify_eq, Function.comp_def,
    Option.map_map]

theorem setFunction_self {m : Module} {id : FunctionId} {f : Function}
    (h : m.function? id = some f) : m.setFunction id f = m := by
  have hslot := Arena.get?_eq_some_iff.mp h
  simp only [setFunction, updateFunction, Arena.update]
  have hsame : m.functions.modify id (·.map fun _ => f) = m.functions := by
    apply List.ext_getElem?
    intro other
    rw [List.getElem?_modify]
    split
    next heq =>
      subst heq
      rw [hslot]
      rfl
    next => simp
  rw [hsame]

end Module

namespace Plan

/-- All that is inlined has a body with plain calls, and returns no function. -/
def Suits (plan : Plan) (m : Module) : Prop :=
  ∀ id, plan.forces id = true → ∃ g, m.function? id = some g ∧ g.isDeclaration = false ∧
    m.PlainBody g ∧ ∀ o ∈ g.results, o.function? = none

/-- What is done next if the root has become the given function: no call is left, or one of a
variadic function is found, or the calls of a function are put in place of a call of it. -/
inductive PlainTurn (plan : Plan) (m : Module) (f : Function) : Prop where
  | done (hnext : plan.nextCall? (m.setFunction plan.root f) plan.root = none)
      (hcallees : ∀ id ∈ f.directCallees, plan.forces id = false)
  | variadic {b : BlockId} {index : Nat} {id : FunctionId} {g : Function}
      (hnext : plan.nextCall? (m.setFunction plan.root f) plan.root = some (b, index))
      (hid : id ∈ f.directCallees) (hforces : plan.forces id = true) (hg : m.function? id = some g)
      (hvariadic : g.isVarArg = true)
      (hcall : (m.setFunction plan.root f).inlineCall plan.root b index =
        .error (.rejected (.varArgInline f.name g.name)))
  | inlined {b : BlockId} {index : Nat} {id : FunctionId} {g f' : Function}
      {rest : List FunctionId}
      (hnext : plan.nextCall? (m.setFunction plan.root f) plan.root = some (b, index))
      (hforces : plan.forces id = true) (hg : m.function? id = some g)
      (hfixed : g.isVarArg = false)
      (hcall : (m.setFunction plan.root f).inlineCall plan.root b index =
        .ok (some (m.setFunction plan.root f')))
      (hbody : m.PlainBody f') (hname : f'.name = f.name)
      (hbefore : f.directCallees.Perm (id :: rest))
      (hafter : f'.directCallees.Perm (rest ++ g.directCallees))

section

variable {plan : Plan} {m : Module} {f first : Function}

theorem Suits.plainTurn (hsuits : plan.Suits m) (hroot : m.function? plan.root = some first)
    (hf : m.PlainBody f) : plan.PlainTurn m f := by
  have hset : (m.setFunction plan.root f).function? plan.root = some f := by
    rw [Module.function?_setFunction hroot, if_pos rfl]
  cases hnext : plan.nextCall? (m.setFunction plan.root f) plan.root with
  | none =>
      have hcalls := not_directCall_of_nextCall?_eq_none hset hnext
      rw [body?_setFunction hroot] at hcalls
      refine .done hnext fun id hid => Bool.eq_false_of_not_eq_true fun hforces => ?_
      obtain ⟨g, hg, hdefined, _⟩ := hsuits id hforces
      rw [Function.directCallees_eq] at hid
      obtain ⟨op, hop, hdirect⟩ := List.mem_filterMap.mp hid
      exact hcalls op hop ⟨id, g, hdirect, body?_eq_some.mpr ⟨hforces, hg, hdefined⟩⟩
  | some place =>
      obtain ⟨b, index⟩ := place
      obtain ⟨block, before, i, after, hblock, hsplit, rfl, hdirect, _⟩ :=
        exists_of_nextCall? hset hnext
      have hcall := hdirect.isCall
      obtain ⟨id, g, hcallee, hbody⟩ := hdirect
      rw [body?_setFunction hroot] at hbody
      obtain ⟨hforces, hg, hdefined⟩ := body?_eq_some.mp hbody
      obtain ⟨dest, ty, args, hop⟩ := Operation.directCallee?_eq_some hcallee
      have hmem : i.op ∈ f.calls := Function.mem_calls.mpr
        ⟨hcall, b, block, hblock, i, by simp [hsplit], rfl⟩
      have hsite : Function.callSite? (m.setFunction plan.root f) f b before.length =
          some ⟨dest, ty, g, args⟩ := by
        refine Module.callSite?_eq_some hblock hsplit hop ?_ hdefined
        rw [Module.function?_setFunction hroot, if_neg, hg]
        rintro rfl
        simp [forces] at hforces
      cases hvariadic : g.isVarArg with
      | true =>
          refine .variadic hnext ?_ hforces hg hvariadic ?_
          · rw [Function.directCallees_eq]
            exact List.mem_filterMap.mpr ⟨i.op, hmem, hcallee⟩
          · rw [Module.inlineCall, hset]
            simp only [hsite, hvariadic, if_true]
            rfl
      | false =>
          obtain ⟨_, hg', _, hgPlain, hgResults⟩ := hsuits id hforces
          obtain rfl := Option.some.inj (hg.symm.trans hg')
          have harity : args.length = g.parameters.length := by
            have haccepts := (hf.plain i.op hmem).arity id g hcallee hg
            rw [hop] at haccepts
            exact (Module.acceptsArity_iff.mp haccepts).2 hvariadic
          obtain ⟨f', rest, hf', hbody, hname, hbefore, hafter⟩ :=
            hf.exists_inlineBody hgPlain hgResults hblock hsplit hop
          have hcall := Module.inlineCall_eq_ok hset hsite hvariadic harity hf'
          rw [Module.setFunction_setFunction] at hcall
          exact .inlined hnext hforces hg hvariadic hcall hbody hname hbefore hafter

end

/-! ## A run -/

/-- Some chain of calls that are inlined leads from one of the functions to a variadic one. -/
def LeadsToVariadic (plan : Plan) (m : Module) (ids : List FunctionId) : Prop :=
  ∃ id ∈ ids, plan.forces id = true ∧ ∃ last g,
    Relation.ReflTransGen (plan.Inlines m) id last ∧ m.function? last = some g ∧ g.isVarArg = true

/-- What a run comes to from the given body of the root. -/
inductive PlainOutcome (plan : Plan) (m : Module) (totals : plan.Totals m) (f : Function) :
    Except Failure (Module × Nat) → Prop where
  | variadic {id : FunctionId} {g : Function} (hleads : plan.LeadsToVariadic m f.directCallees)
      (hforces : plan.forces id = true) (hg : m.function? id = some g)
      (hvariadic : g.isVarArg = true) :
      PlainOutcome plan m totals f (.error (.rejected (.varArgInline f.name g.name)))
  | completed {f' : Function} (hleads : ¬plan.LeadsToVariadic m f.directCallees)
      (hdone : ∀ id ∈ f'.directCallees, plan.forces id = false)
      (hcount : ∀ target, plan.forces target = false → f'.directCallees.count target =
        f.directCallees.count target +
          plan.sumForced (fun callee => totals.calls callee target) f.directCallees) :
      PlainOutcome plan m totals f (.ok (m.setFunction plan.root f',
        plan.sumForced (fun callee => 1 + totals.inlined callee) f.directCallees))

section

variable {plan : Plan} {m : Module} {f g first : Function} {id : FunctionId}
  {ids others rest : List FunctionId}

theorem LeadsToVariadic.of_perm (h : plan.LeadsToVariadic m ids) (hperm : ids.Perm others) :
    plan.LeadsToVariadic m others := by
  obtain ⟨id, hid, hleads⟩ := h
  exact ⟨id, hperm.mem_iff.mp hid, hleads⟩

theorem leadsToVariadic_congr (hperm : ids.Perm others) :
    plan.LeadsToVariadic m ids ↔ plan.LeadsToVariadic m others :=
  ⟨fun h => h.of_perm hperm, fun h => h.of_perm hperm.symm⟩

theorem reachesVariadic_iff (hroot : m.function? plan.root = some f) :
    plan.ReachesVariadic m ↔ plan.LeadsToVariadic m f.directCallees := by
  constructor
  · rintro ⟨last, g, hchain, hg, hvariadic⟩
    obtain ⟨id, ⟨hforces, hcall⟩, hchain⟩ := Relation.TransGen.head'_iff.mp hchain
    obtain ⟨f', hf', hid⟩ := Module.callsDirectly_iff.mp hcall
    obtain rfl := Option.some.inj (hroot.symm.trans hf')
    exact ⟨id, hid, hforces, last, g, hchain, hg, hvariadic⟩
  · rintro ⟨id, hid, hforces, last, g, hchain, hg, hvariadic⟩
    have hcall := Module.callsDirectly_iff.mpr ⟨f, hroot, hid⟩
    exact ⟨last, g, Relation.TransGen.head'_iff.mpr ⟨id, ⟨hforces, hcall⟩, hchain⟩, hg, hvariadic⟩

section

variable (hforces : plan.forces id = true) (hg : m.function? id = some g)
include hforces hg

/-- Putting the calls of a function in place of a call of it changes no chain. -/
theorem leadsToVariadic_inlined (hfixed : g.isVarArg = false) :
    plan.LeadsToVariadic m (rest ++ g.directCallees) ↔ plan.LeadsToVariadic m (id :: rest) := by
  constructor
  · rintro ⟨start, hstart, hforcesStart, last, last', hchain, hlast⟩
    rcases List.mem_append.mp hstart with hstart | hstart
    · exact ⟨start, .tail _ hstart, hforcesStart, last, last', hchain, hlast⟩
    · have hcall := Module.callsDirectly_iff.mpr ⟨g, hg, hstart⟩
      exact ⟨id, .head _, hforces, last, last', .head ⟨hforcesStart, hcall⟩ hchain, hlast⟩
  · rintro ⟨start, hstart, hforcesStart, last, last', hchain, hlast, hvariadic⟩
    rcases List.mem_cons.mp hstart with rfl | hstart
    · rcases Relation.ReflTransGen.cases_head hchain with rfl | ⟨next, ⟨hnext, hcall⟩, hchain⟩
      · obtain rfl := Option.some.inj (hg.symm.trans hlast)
        rw [hfixed] at hvariadic
        cases hvariadic
      · obtain ⟨g', hg', hmem⟩ := Module.callsDirectly_iff.mp hcall
        obtain rfl := Option.some.inj (hg.symm.trans hg')
        exact ⟨next, List.mem_append_right _ hmem, hnext, last, last', hchain, hlast, hvariadic⟩
    · exact ⟨start, List.mem_append_left _ hstart, hforcesStart, last, last', hchain, hlast,
        hvariadic⟩

/-- One call less is to be inlined. -/
theorem Totals.inlined_step (totals : plan.Totals m) :
    plan.sumForced (fun callee => 1 + totals.inlined callee) (id :: rest) =
      plan.sumForced (fun callee => 1 + totals.inlined callee) (rest ++ g.directCallees) + 1 := by
  rw [sumForced, if_pos hforces, sumForced_append, totals.inlined_eq id g hg]
  omega

/-- The calls that are left in the end stay as many. -/
theorem Totals.calls_step (totals : plan.Totals m) {target : FunctionId}
    (htarget : plan.forces target = false) :
    (id :: rest).count target +
        plan.sumForced (fun callee => totals.calls callee target) (id :: rest) =
      (rest ++ g.directCallees).count target +
        plan.sumForced (fun callee => totals.calls callee target) (rest ++ g.directCallees) := by
  have hne : id ≠ target := by
    rintro rfl
    rw [hforces] at htarget
    cases htarget
  rw [List.count_cons_of_ne hne, sumForced, if_pos hforces, sumForced_append, List.count_append,
    totals.calls_eq id g target hg]
  omega

end

theorem PlainOutcome.of_done (totals : plan.Totals m)
    (hcallees : ∀ id ∈ f.directCallees, plan.forces id = false) :
    plan.PlainOutcome m totals f (.ok (m.setFunction plan.root f, 0)) := by
  have hleads : ¬plan.LeadsToVariadic m f.directCallees := by
    rintro ⟨id, hid, hforces, _⟩
    rw [hcallees id hid] at hforces
    cases hforces
  have houtcome := @completed plan m totals f f hleads hcallees fun target _ => by
    rw [sumForced_eq_zero hcallees, Nat.add_zero]
  rwa [sumForced_eq_zero hcallees] at houtcome

/-- A run that began with one call more. -/
theorem PlainOutcome.of_inlined {totals : plan.Totals m} {f' : Function}
    {last : Except Failure (Module × Nat)} (h : plan.PlainOutcome m totals f' last)
    (hforces : plan.forces id = true) (hg : m.function? id = some g) (hfixed : g.isVarArg = false)
    (hname : f'.name = f.name) (hbefore : f.directCallees.Perm (id :: rest))
    (hafter : f'.directCallees.Perm (rest ++ g.directCallees)) :
    plan.PlainOutcome m totals f (last.map fun last => (last.1, last.2 + 1)) := by
  have hleads : plan.LeadsToVariadic m f'.directCallees ↔
      plan.LeadsToVariadic m f.directCallees := by
    rw [leadsToVariadic_congr hbefore, leadsToVariadic_congr hafter,
      leadsToVariadic_inlined hforces hg hfixed]
  cases h with
  | variadic hvariadicLeads hforces' hg' hvariadic =>
      rw [hname]
      exact .variadic (hleads.mp hvariadicLeads) hforces' hg' hvariadic
  | @completed result hnone hdone hcount =>
      have houtcome := @completed plan m totals f result (mt hleads.mpr hnone) hdone
        fun target htarget => by
          rw [hcount target htarget, hafter.count_eq, sumForced_perm hafter,
            ← totals.calls_step hforces hg htarget, hbefore.count_eq, sumForced_perm hbefore]
      rwa [sumForced_perm hbefore, totals.inlined_step hforces hg, ← sumForced_perm hafter]
        at houtcome

theorem Suits.plainOutcome (hsuits : plan.Suits m) (hroot : m.function? plan.root = some first)
    (totals : plan.Totals m) (hf : m.PlainBody f) {budget : Nat}
    (hbudget : plan.sumForced (fun callee => 1 + totals.inlined callee) f.directCallees ≤ budget) :
    plan.PlainOutcome m totals f
      (plan.inlineRoot budget (m.setFunction plan.root f)) := by
  -- each turn spends one of the budget and leaves one call less to be inlined
  induction budget generalizing f with
  | zero =>
      cases hsuits.plainTurn hroot hf with
      | done hnext hcallees =>
          rw [inlineRoot_of_done hnext]
          exact .of_done totals hcallees
      | variadic _ hid hforces =>
          have hle := (le_sumForced hid hforces).trans hbudget
          omega
      | inlined _ hforces hg _ _ _ _ hbefore =>
          rw [sumForced_perm hbefore, totals.inlined_step hforces hg] at hbudget
          omega
  | succ budget ih =>
      cases hsuits.plainTurn hroot hf with
      | done hnext hcallees =>
          rw [inlineRoot_of_done hnext]
          exact .of_done totals hcallees
      | variadic hnext hid hforces hg hvariadic hcall =>
          rw [inlineRoot_of_rejected hnext hcall]
          exact .variadic ⟨_, hid, hforces, _, _, .refl, hg, hvariadic⟩ hforces hg hvariadic
      | inlined hnext hforces hg hfixed hcall hbody hname hbefore hafter =>
          rw [inlineRoot_of_inlined hnext hcall]
          rw [sumForced_perm hbefore, totals.inlined_step hforces hg] at hbudget
          refine (ih hbody ?_).of_inlined hforces hg hfixed hname hbefore hafter
          rw [sumForced_perm hafter]
          omega

end

/-! ## Checked plans -/

section

variable {config : Config} {m : Module} {plan : Plan} (h : m.checkPlan config = .ok plan)
  (hfirst : m.FirstOrder)
include h hfirst

theorem plainBody_of_checkPlan {id : FunctionId} {f : Function} (hf : m.function? id = some f)
    (hbody : f.isDeclaration = false) : m.PlainBody f := by
  have hverified := (rooted_of_checkPlan h).verified
  have hdefects := (Module.defects_eq_nil_iff.mp hverified).2.2.2.2 id f hf
  refine ⟨(Module.wellFormed_of_functionDefects hbody hdefects).entry_lt, fun op hop => ?_⟩
  refine ⟨(hfirst id f hf).args op hop, fun callee g hcallee hg => ?_⟩
  obtain ⟨_, b, block, hblock, i, hi, rfl⟩ := Function.mem_calls.mp hop
  obtain ⟨dest, ty, args, hcall⟩ := Operation.directCallee?_eq_some hcallee
  rw [hcall]
  exact Module.acceptsArity_of_call hbody hdefects hblock hi hcall hg

theorem suits_of_checkPlan : plan.Suits m := by
  intro id hforces
  obtain ⟨_, g, hg, hbody⟩ := (forces_iff h).mp hforces
  exact ⟨g, hg, hbody, plainBody_of_checkPlan h hfirst hg hbody, (hfirst id g hg).results⟩

/-- In a verified module whose plan is valid and where no function is passed to a call or
returned, forced inlining comes to an end. It fails exactly if a chain of calls that are inlined
leads to a variadic function. Otherwise it inlines every call once for each chain that leads to
it, leaves as many calls of the other functions as the chains have, and changes only the root. -/
theorem inlineAll_exact :
    Nonempty (plan.Totals m) ∧ ∀ (totals : plan.Totals m) (budget : Nat),
      totals.inlined plan.root ≤ budget →
      (plan.ReachesVariadic m → ∃ id g, plan.forces id = true ∧ m.function? id = some g ∧
        g.isVarArg = true ∧ plan.inlineAll budget m =
          .error (.rejected (.varArgInline (m.functionName plan.root) g.name))) ∧
      (¬plan.ReachesVariadic m → ∃ f,
        plan.inlineAll budget m = .ok (m.setFunction plan.root f, totals.inlined plan.root) ∧
        (∀ id ∈ f.directCallees, plan.forces id = false) ∧
        ∀ id, plan.forces id = false →
          f.directCallees.count id = totals.calls plan.root id) := by
  refine ⟨nonempty_totals h, fun totals budget hbudget => ?_⟩
  have hrooted := rooted_of_checkPlan h
  obtain ⟨f, hf, hbody⟩ := hrooted.body
  have hstale := (Module.defects_eq_nil_iff.mp hrooted.verified).1
  have hname : m.functionName plan.root = f.name := by
    rw [Module.functionName, hf]
    rfl
  rw [totals.inlined_eq _ f hf] at hbudget
  have houtcome := (suits_of_checkPlan h hfirst).plainOutcome hf totals
    (plainBody_of_checkPlan h hfirst hf hbody) hbudget
  rw [Module.setFunction_self hf, ← inlineAll_eq hstale (Module.checkPlan_eq_ok h).2.1] at houtcome
  rw [reachesVariadic_iff hf, hname, totals.inlined_eq _ f hf]
  generalize plan.inlineAll budget m = last at houtcome
  cases houtcome with
  | variadic hleads hforces hg hvariadic =>
      exact ⟨fun _ => ⟨_, _, hforces, hg, hvariadic, rfl⟩, fun hnone => absurd hleads hnone⟩
  | completed hleads hdone hcount =>
      refine ⟨fun hsome => absurd hsome hleads, fun _ => ⟨_, rfl, hdone, fun id hid => ?_⟩⟩
      rw [hcount id hid, totals.calls_eq _ f id hf]

end

def calling (name : String) (ids : List FunctionId) : Function where
  name
  returnType := .void
  blocks := [
    { instructions := ids.map fun id => { op := .call none .void (.const (.function id)) [] }
      terminator := .ret none }]

/-- Six calls of the first function come of the last one. -/
def nested : Module :=
  Module.rebuildNames
    { name := "nested"
      functions := [some (.declare "log" .void [] false), some (calling "leaf" [0, 0]),
        some (calling "middle" [1, 0]), some (calling "main" [2, 1, 0])] }

def nestedPlan : Plan := { root := 3, order := [1, 2, 3] }

theorem checkPlan_nested : nested.checkPlan {} = .ok nestedPlan := by
  have hplan : compute {} nested (CallGraph.ofModule nested) = .ok nestedPlan :=
    compute_of_pairwise (by decide +kernel) (by decide +kernel) (by decide +kernel)
      (by decide +kernel)
  exact Module.checkPlan_of_checks (by decide +kernel) hplan (by decide +kernel)

theorem mem_nested {id : FunctionId} {f : Function} (h : nested.function? id = some f) :
    f ∈ [.declare "log" .void [] false, calling "leaf" [0, 0], calling "middle" [1, 0],
      calling "main" [2, 1, 0]] := by
  have hmem := List.mem_of_getElem? (Arena.get?_eq_some_iff.mp h)
  simpa [nested, Module.rebuildNames] using hmem

/-- The totals are found from the leaf to the root. -/
theorem totals_nested (totals : nestedPlan.Totals nested) :
    totals.inlined 3 = 3 ∧ totals.calls 3 0 = 6 := by
  have hleaf : (calling "leaf" [0, 0]).directCallees = [0, 0] := by decide
  have hmiddle : (calling "middle" [1, 0]).directCallees = [1, 0] := by decide
  have hmain : (calling "main" [2, 1, 0]).directCallees = [2, 1, 0] := by decide
  have hforces : nestedPlan.forces 0 = false ∧ nestedPlan.forces 1 = true ∧
      nestedPlan.forces 2 = true := by decide
  obtain ⟨hlog, hforcesLeaf, hforcesMiddle⟩ := hforces
  constructor
  · have h1 := totals.inlined_eq 1 _ rfl
    have h2 := totals.inlined_eq 2 _ rfl
    have h3 := totals.inlined_eq 3 _ rfl
    simp only [hleaf, hmiddle, hmain, sumForced, hlog, hforcesLeaf, hforcesMiddle] at h1 h2 h3
    simp [h1, h2, h3]
  · have h1 := totals.calls_eq 1 _ 0 rfl
    have h2 := totals.calls_eq 2 _ 0 rfl
    have h3 := totals.calls_eq 3 _ 0 rfl
    simp only [hleaf, hmiddle, hmain, sumForced, hlog, hforcesLeaf, hforcesMiddle] at h1 h2 h3
    simp [h1, h2, h3]

theorem nested_inlined_exactly :
    nested.checkPlan {} = .ok nestedPlan ∧ nested.FirstOrder ∧ ∃ f,
      nestedPlan.inlineAll 3 nested = .ok (nested.setFunction 3 f, 3) ∧
      f.directCallees.count 0 = 6 ∧ ∀ id ∈ f.directCallees, nestedPlan.forces id = false := by
  have hall : ∀ f ∈ [.declare "log" .void [] false, calling "leaf" [0, 0],
      calling "middle" [1, 0], calling "main" [2, 1, 0]],
      (∀ op ∈ f.calls, ∀ o ∈ op.args, o.function? = none) ∧
        (∀ o ∈ f.results, o.function? = none) ∧ f.isVarArg = false := by
    decide
  have hfirst : nested.FirstOrder := fun id f hf =>
    ⟨(hall f (mem_nested hf)).1, (hall f (mem_nested hf)).2.1⟩
  have hfixed : ¬nestedPlan.ReachesVariadic nested := by
    rintro ⟨id, f, _, hf, hvariadic⟩
    rw [(hall f (mem_nested hf)).2.2] at hvariadic
    cases hvariadic
  obtain ⟨⟨totals⟩, hexact⟩ := inlineAll_exact checkPlan_nested hfirst
  obtain ⟨hinlined, hcalls⟩ := totals_nested totals
  obtain ⟨f, hresult, hdone, hcount⟩ := (hexact totals 3 (Nat.le_of_eq hinlined)).2 hfixed
  refine ⟨checkPlan_nested, hfirst, f, ?_, ?_, hdone⟩
  · rw [hresult]
    exact congrArg (fun count => Except.ok (nested.setFunction 3 f, count)) hinlined
  · rw [hcount 0 (by decide)]
    exact hcalls

end Plan

end Monolith

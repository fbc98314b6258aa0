import Monolith.Proofs.Flattening.LastingCalls
import Monolith.Proofs.Flattening.StackSlots
import Monolith.Proofs.Inlining.Ends

/-! # Calls of the root

Inlining may leave calls of the root in the root, and globals move into its stack whether it
does or not. The calls that are left are those to which chains of calls from the root lead.
-/

namespace Monolith

/-! ## Chains that lead to a call -/

/-- Some call of the first frame is one of the function. -/
inductive KnownCall (bodies : FunctionId → Option Function) (id : FunctionId) :
    List Frame → Prop where
  | intro {frame : Frame} {below : List Frame} {dest : Option ValueId} {ty : Ty}
      {callee : Operand} {args : List Operand}
      (hcall : .call dest ty callee args ∈ frame.function.calls)
      (hcallee : Known bodies (frame :: below) callee id) : KnownCall bodies id (frame :: below)

/-- Some chain of calls from the frames, of the given length, ends with a call of the
function. -/
def CallsAfter (bodies : FunctionId → Option Function) (id : FunctionId) : Nat → List Frame → Prop
  | 0, frames => KnownCall bodies id frames
  | n + 1, frames => ∃ next, Enters bodies frames next ∧ CallsAfter bodies id n next

namespace Splice

variable {bodies : FunctionId → Option Function} {sp : Splice bodies} {id : FunctionId}
  {frames frames' : List Frame} {n : Nat}

theorem Above.knownCall_iff (h : sp.Above frames frames') :
    KnownCall bodies id frames ↔ KnownCall bodies id frames' := by
  obtain ⟨hover, hargs, hg⟩ := h
  have hpush := hover.push hargs hg
  constructor
  · rintro ⟨hcall, hcallee⟩
    exact .intro hcall (known_over hcallee hpush (hg.operand_records _ hcall _ List.mem_cons_self))
  · rintro ⟨hcall, hcallee⟩
    exact .intro hcall
      (known_of_over hcallee hpush (hg.operand_records _ hcall _ List.mem_cons_self) rfl)

theorem Above.callsAfter_iff (h : sp.Above frames frames') :
    CallsAfter bodies id n frames ↔ CallsAfter bodies id n frames' := by
  induction n generalizing frames frames' with
  | zero => exact h.knownCall_iff
  | succ n ih =>
      constructor
      · rintro ⟨next, henters, hcalls⟩
        obtain ⟨next', henters, habove⟩ := h.enters henters
        exact ⟨next', henters, (ih habove).mp hcalls⟩
      · rintro ⟨next', henters, hcalls⟩
        obtain ⟨next, henters, habove⟩ := h.enters_of henters
        exact ⟨next, henters, (ih habove).mpr hcalls⟩

/-- The call that is inlined is the only one that is lost. -/
theorem knownCall_result_of_caller (hid : bodies id = none)
    (h : KnownCall bodies id sp.caller.alone) : KnownCall bodies id sp.result.alone := by
  obtain ⟨hcall, hcallee⟩ := h
  rcases sp.mem_caller_calls.mp hcall with heq | hkept
  · obtain ⟨rfl, rfl, rfl, rfl⟩ := Operation.call.inj heq
    cases hcallee
    cases hid.symm.trans sp.body
  · exact .intro (sp.mem_result_of_kept hkept)
      (known_over hcallee .outer (sp.tidy.operand_records _ hcall _ List.mem_cons_self))

theorem knownCall_result_of_within (h : KnownCall bodies id sp.within) :
    KnownCall bodies id sp.result.alone := by
  obtain ⟨hcall, hcallee⟩ := h
  have hknown := known_over hcallee .inner
    (sp.callee_tidy.operand_records _ hcall _ List.mem_cons_self)
  exact .intro (sp.mem_result_of_copied hcall) hknown

theorem knownCall_of_result (h : KnownCall bodies id sp.result.alone) :
    KnownCall bodies id sp.caller.alone ∨ KnownCall bodies id sp.within := by
  obtain ⟨hcall, hcallee⟩ := h
  rcases sp.mem_result_calls hcall with ⟨old, hold, heq⟩ | ⟨old, hold, heq⟩
  · obtain ⟨callee, args, rfl, rfl, rfl⟩ := Operation.mapOperands_eq_call heq
    have hmem := sp.mem_caller_of_kept hold
    exact .inl (.intro hmem (known_of_over hcallee .outer
      (sp.tidy.operand_records _ hmem _ List.mem_cons_self) rfl))
  · obtain ⟨callee, args, hcopy, rfl, rfl⟩ := Operation.mapOperands_eq_call heq
    obtain ⟨dest, hcopy, _⟩ := Operation.mapDest_eq_call hcopy
    obtain ⟨callee, args, rfl, rfl, rfl⟩ := Operation.mapOperands_eq_call hcopy
    exact .inr (.intro hold (known_of_over hcallee .inner
      (sp.callee_tidy.operand_records _ hold _ List.mem_cons_self) rfl))

/-- Inlining makes chains shorter and loses no call that they lead to. -/
theorem exists_callsAfter_iff (hid : bodies id = none) :
    (∃ n, CallsAfter bodies id n sp.result.alone) ↔
      ∃ n, CallsAfter bodies id n sp.caller.alone := by
  constructor
  · rintro ⟨_ | n, hcalls⟩
    · rcases knownCall_of_result hcalls with hcalls | hcalls
      · exact ⟨0, hcalls⟩
      · exact ⟨1, sp.within, enters_within, hcalls⟩
    · -- a chain that begins with a copied call is one call longer in the caller
      obtain ⟨next', henters', hcalls⟩ := hcalls
      obtain ⟨next, habove, henters | henters⟩ := enters_of_result henters'
      · exact ⟨n + 1, next, henters, habove.callsAfter_iff.mpr hcalls⟩
      · exact ⟨n + 2, sp.within, enters_within, next, henters, habove.callsAfter_iff.mpr hcalls⟩
  · rintro ⟨_ | n, hcalls⟩
    · exact ⟨0, knownCall_result_of_caller hid hcalls⟩
    · obtain ⟨next, henters, hcalls⟩ := hcalls
      rcases enters_result_of_caller henters with rfl | ⟨next', henters', habove⟩
      · -- the chain begins with the call that is inlined, so the copy has what follows
        cases n with
        | zero => exact ⟨0, knownCall_result_of_within hcalls⟩
        | succ n =>
            obtain ⟨next, henters, hcalls⟩ := hcalls
            obtain ⟨next', henters', habove⟩ := enters_result_of_within henters
            exact ⟨n + 1, next', henters', habove.callsAfter_iff.mp hcalls⟩
      · exact ⟨n + 1, next', henters', habove.callsAfter_iff.mp hcalls⟩

end Splice

section

variable {bodies : FunctionId → Option Function} {f g : Function} {id : FunctionId}

theorem exists_callsAfter_of_splices (hid : bodies id = none)
    (hpath : Relation.ReflTransGen (Plan.Splices bodies) f g) :
    (∃ n, CallsAfter bodies id n g.alone) ↔ ∃ n, CallsAfter bodies id n f.alone := by
  induction hpath with
  | refl => exact .rfl
  | tail _ hstep ih =>
      obtain ⟨sp, rfl, rfl⟩ := hstep
      exact (Splice.exists_callsAfter_iff hid).trans ih

/-- Where nothing is left to inline, chains lead to direct calls only. -/
theorem exists_callsAfter_iff_mem (hcalls : ∀ op ∈ f.calls, ¬DirectCall bodies op) :
    (∃ n, CallsAfter bodies id n f.alone) ↔ id ∈ f.directCallees := by
  rw [Function.directCallees_eq, List.mem_filterMap]
  constructor
  · rintro ⟨_ | n, hchain⟩
    · obtain ⟨hcall, hcallee⟩ := hchain
      obtain ⟨k, hknown⟩ := hcallee.exists_bound
      obtain ⟨first, hfirst⟩ := hknown.exists_resolvesBy hcall
      cases hfirst with
      | direct heq hmem => exact ⟨_, hmem, heq ▸ rfl⟩
      | after hearlier hbody =>
          obtain ⟨hmem, hdirect⟩ := hearlier.directCall hbody
          exact absurd hdirect (hcalls _ hmem)
    · obtain ⟨next, henters, _⟩ := hchain
      obtain ⟨op, hop, hdirect⟩ := henters.exists_directCall
      exact absurd hdirect (hcalls op hop)
  · rintro ⟨op, hop, hdirect⟩
    obtain ⟨dest, ty, args, rfl⟩ := Operation.directCallee?_eq_some hdirect
    exact ⟨0, .intro hop .const⟩

end

/-! ## One call inlined -/

/-- The second function is the first one with the body of a function in place of a direct call
of it. -/
inductive Unfolds (bodies : FunctionId → Option Function) (f f' : Function) : Prop where
  | intro {id : FunctionId} {g : Function} {dest : Option ValueId} {ty : Ty} {args : List Operand}
      {rest : List Operation} (hbody : bodies id = some g)
      (hbefore : f.calls.Perm (.call dest ty (.const (.function id)) args :: rest))
      (hafter : f'.calls = (rest ++ g.calls.map
          (CallSite.renaming ⟨dest, ty, g, args⟩ f).call).map
        (Operation.mapOperands (CallSite.subst ⟨dest, ty, g, args⟩
          (g.results.map (CallSite.renaming ⟨dest, ty, g, args⟩ f).operand)))) :
      Unfolds bodies f f'

namespace Plan

variable {plan : Plan} {m n : Module} {f : Function} {b : BlockId} {index : Nat}

/-- The next call is one that can be inlined, if it fits. -/
theorem unfolds_of_inlineCall (hroot : m.function? plan.root = some f)
    (hnext : plan.nextCall? m plan.root = some (b, index)) {next? : Option Module}
    (hcall : m.inlineCall plan.root b index = .ok next?) :
    ∃ f', next? = some (m.setFunction plan.root f') ∧ Unfolds (plan.body? m) f f' := by
  obtain ⟨block, before, i, after, hblock, hsplit, rfl, hdirect, _⟩ :=
    exists_of_nextCall? hroot hnext
  have hisCall := hdirect.isCall
  obtain ⟨id, g, hcallee, hbody⟩ := hdirect
  obtain ⟨dest, ty, args, hop⟩ := Operation.directCallee?_eq_some hcallee
  obtain ⟨_, hg, hdefined⟩ := body?_eq_some.mp hbody
  have hsite := Module.callSite?_eq_some hblock hsplit hop hg hdefined
  cases next? with
  | none => exact absurd hcall (Module.inlineCall_ne_none hroot hsite)
  | some n =>
      obtain ⟨_, site, f', hf, hsite', _, _, hf', rfl⟩ := Module.exists_of_inlineCall hcall
      obtain rfl := Option.some.inj (hroot.symm.trans hf)
      obtain rfl := Option.some.inj (hsite.symm.trans hsite')
      obtain ⟨rest, hbefore, hafter⟩ := Function.exists_calls_inlineBody hblock hsplit hisCall hf'
      rw [hop] at hbefore
      exact ⟨f', rfl, .intro hbody hbefore hafter⟩

/-- A run that succeeds has inlined one call after the other until none is left. -/
theorem unfolds_of_inlineInto {budget count : Nat} (hroot : m.function? plan.root = some f)
    (h : plan.inlineInto plan.root budget m = .ok (n, count)) :
    ∃ f', n.function? plan.root = some f' ∧
      Relation.ReflTransGen (Unfolds (plan.body? m)) f f' ∧
      ∀ op ∈ f'.calls, ¬DirectCall (plan.body? m) op := by
  refine Module.inlineInto_run (Q := fun m n _ => ∀ f, m.function? plan.root = some f →
    ∃ f', n.function? plan.root = some f' ∧
      Relation.ReflTransGen (Unfolds (plan.body? m)) f f' ∧
      ∀ op ∈ f'.calls, ¬DirectCall (plan.body? m) op) ?_ ?_ h f hroot
  · intro m hstop f hroot
    have hnext : plan.nextCall? m plan.root = none := by
      rw [Option.eq_none_iff_forall_ne_some]
      intro place hnext
      obtain ⟨_, hnone, _⟩ := unfolds_of_inlineCall hroot hnext (hstop _ _ hnext)
      cases hnone
    exact ⟨f, hroot, .refl, not_directCall_of_nextCall?_eq_none hroot hnext⟩
  · intro m next n b index count hnext hcall hrest f hroot
    obtain ⟨f', hnext', hstep⟩ := unfolds_of_inlineCall hroot hnext hcall
    obtain rfl := Option.some.inj hnext'
    have hset : (m.setFunction plan.root f').function? plan.root = some f' := by
      rw [Module.function?_setFunction hroot, if_pos rfl]
    obtain ⟨last, hlast, hsteps, hcalls⟩ := hrest f' hset
    -- the root is not among the bodies, so they are the same before and after
    rw [body?_setFunction hroot] at hsteps hcalls
    exact ⟨last, hlast, .head hstep hsteps, hcalls⟩

end Plan

/-! ## Direct calls in a chain -/

/-- The body of the first function calls the second one by name. -/
def CallsByName (bodies : FunctionId → Option Function) (id callee : FunctionId) : Prop :=
  ∃ g, bodies id = some g ∧ callee ∈ g.directCallees

theorem Operation.directCallee?_mapOperands_of_const {change : Operand → Operand}
    (hchange : ∀ c, change (.const c) = .const c) {op : Operation} {id : FunctionId}
    (h : op.directCallee? = some id) : (op.mapOperands change).directCallee? = some id := by
  obtain ⟨dest, ty, args, rfl⟩ := directCallee?_eq_some h
  simp [mapOperands, hchange, directCallee?, callee?, Operand.function?, Constant.function?]

def Operation.Mentions (op : Operation) (id : FunctionId) : Prop :=
  ∃ o ∈ op.operands, o.function? = some id

/-- The function is called, passed to a call, or returned. -/
def Function.HandsOut (f : Function) (id : FunctionId) : Prop :=
  (∃ op ∈ f.calls, op.Mentions id) ∨ ∃ o ∈ f.results, o.function? = some id

namespace CallSite

variable {site : CallSite} {id : FunctionId} {o : Operand}

theorem function?_renaming {f : Function}
    (h : ((site.renaming f).operand o).function? = some id) :
    o.function? = some id ∨ ∃ arg ∈ site.args, arg.function? = some id := by
  cases o with
  | const c => exact .inl h
  | var x =>
      rcases site.operand_renaming_cases f x with harg | ⟨y, hy⟩
      · exact .inr ⟨_, harg, h⟩
      · rw [hy] at h
        cases h

theorem function?_subst {results : List Operand}
    (h : (site.subst results o).function? = some id) :
    o.function? = some id ∨ ∃ value ∈ results, value.function? = some id := by
  cases o with
  | const c =>
      rw [site.subst_const] at h
      exact .inl h
  | var x =>
      rcases site.subst_var_cases results x with hsame | hpoison | hreturned
      · rw [hsame] at h
        cases h
      · rw [hpoison] at h
        cases h
      · exact .inr ⟨_, hreturned, h⟩

end CallSite

namespace Unfolds

variable {bodies : FunctionId → Option Function} {f f' : Function} {root : FunctionId}

/-- A chain of direct calls that leads to a function that is not inlined still leads to it. -/
theorem leads (h : Unfolds bodies f f') (hroot : bodies root = none)
    (hleads : ∃ id ∈ f.directCallees, Relation.ReflTransGen (CallsByName bodies) id root) :
    ∃ id ∈ f'.directCallees, Relation.ReflTransGen (CallsByName bodies) id root := by
  obtain @⟨inlined, g, dest, ty, args, rest, hbody, hbefore, hafter⟩ := h
  obtain ⟨id, hid, hchain⟩ := hleads
  simp only [Function.directCallees_eq, List.mem_filterMap] at hid ⊢
  obtain ⟨op, hop, hdirect⟩ := hid
  have hconst := CallSite.subst_const ⟨dest, ty, g, args⟩
  rcases List.mem_cons.mp (hbefore.mem_iff.mp hop) with rfl | hop
  · -- the chain goes on with a call of the body that is put in place of the call
    obtain rfl := Option.some.inj hdirect
    rcases Relation.ReflTransGen.cases_head hchain with rfl | ⟨next, ⟨g', hg', hnext⟩, hchain⟩
    · cases hroot.symm.trans hbody
    · obtain rfl := Option.some.inj (hbody.symm.trans hg')
      rw [Function.directCallees_eq, List.mem_filterMap] at hnext
      obtain ⟨op, hop, hdirect⟩ := hnext
      refine ⟨next, ⟨_, hafter ▸ List.mem_map_of_mem (List.mem_append_right _
        (List.mem_map_of_mem hop)), ?_⟩, hchain⟩
      refine Operation.directCallee?_mapOperands_of_const (hconst _) ?_
      rw [Renaming.call, Operation.directCallee?_mapDest]
      exact Operation.directCallee?_mapOperands_of_const (fun _ => rfl) hdirect
  · refine ⟨id, ⟨_, hafter ▸ List.mem_map_of_mem (List.mem_append_left _ hop), ?_⟩, hchain⟩
    exact Operation.directCallee?_mapOperands_of_const (hconst _) hdirect

/-- A function that a call mentions was mentioned by a call, or one of the bodies hands it
out. -/
theorem mentions {id : FunctionId} (h : Unfolds bodies f f')
    (hmentions : ∃ op ∈ f'.calls, op.Mentions id) :
    (∃ op ∈ f.calls, op.Mentions id) ∨ ∃ k g, bodies k = some g ∧ g.HandsOut id := by
  obtain @⟨inlined, g, dest, ty, args, rest, hbody, hbefore, hafter⟩ := h
  obtain ⟨op, hop, o, ho, hid⟩ := hmentions
  have hcall : .call dest ty (.const (.function inlined)) args ∈ f.calls :=
    hbefore.mem_iff.mpr List.mem_cons_self
  -- a function among the arguments is mentioned by the call that is inlined
  have hrenamed : ∀ o : Operand,
      ((CallSite.renaming ⟨dest, ty, g, args⟩ f).operand o).function? = some id →
      (∃ op ∈ f.calls, op.Mentions id) ∨ o.function? = some id := by
    intro o ho
    refine (CallSite.function?_renaming ho).symm.imp_left ?_
    rintro ⟨arg, harg, heq⟩
    exact ⟨_, hcall, arg, .tail _ harg, heq⟩
  rw [hafter] at hop
  obtain ⟨old, hold, rfl⟩ := List.mem_map.mp hop
  rw [Operation.operands_mapOperands] at ho
  obtain ⟨source, hsource, rfl⟩ := List.mem_map.mp ho
  rcases CallSite.function?_subst hid with hid | ⟨value, hvalue, hid⟩
  · rcases List.mem_append.mp hold with hold | hold
    · exact .inl ⟨old, hbefore.mem_iff.mpr (.tail _ hold), source, hsource, hid⟩
    · obtain ⟨copied, hcopied, rfl⟩ := List.mem_map.mp hold
      rw [Renaming.call, Operation.operands_mapDest, Operation.operands_mapOperands] at hsource
      obtain ⟨first, hfirst, rfl⟩ := List.mem_map.mp hsource
      exact (hrenamed first hid).imp_right fun hid =>
        ⟨inlined, g, hbody, .inl ⟨copied, hcopied, first, hfirst, hid⟩⟩
  · obtain ⟨result, hresult, rfl⟩ := List.mem_map.mp hvalue
    exact (hrenamed result hid).imp_right fun hid =>
      ⟨inlined, g, hbody, .inr ⟨result, hresult, hid⟩⟩

end Unfolds

/-! ## The root -/

namespace Plan

variable {config : Config} {graph : CallGraph} {plan : Plan} {m : Module} {f f' : Function}

theorem root_not_mem_forced (plan : Plan) : plan.root ∉ plan.forced := by
  rw [mem_forced_iff_forces]
  simp [forces]

theorem body?_root (plan : Plan) (m : Module) : plan.body? m plan.root = none := by
  simp [body?, forces]

/-- Up to the first time that it comes to the root, a chain of direct calls goes through bodies
that are inlined. -/
theorem callsByName_of_chain (hplan : compute config m graph = .ok plan) {id : FunctionId}
    (h : Relation.ReflTransGen m.CallsDirectly id plan.root) :
    Relation.ReflTransGen (CallsByName (plan.body? m)) id plan.root := by
  induction h using Relation.ReflTransGen.head_induction_on with
  | refl => exact .refl
  | @head id next hcall _ ih =>
      by_cases heq : id = plan.root
      · rw [heq]
      · obtain ⟨g, hg, hnext⟩ := Module.callsDirectly_iff.mp hcall
        obtain ⟨callee, hcallee, _⟩ := Function.mem_directCallees.mp hnext
        obtain ⟨block, hblock, _⟩ := Function.mem_callees.mp hcallee
        have hdefined := Function.isDeclaration_of_mem hblock
        have hforces := (forces_iff_inlinable hplan).mpr ⟨heq, g, hg, hdefined⟩
        exact .head ⟨g, body?_eq_some.mpr ⟨hforces, hg, hdefined⟩, hnext⟩ ih

section

variable {bodies : FunctionId → Option Function} {id : FunctionId}
  (hsteps : Relation.ReflTransGen (Unfolds bodies) f f')
include hsteps

/-- If a chain of direct calls leads to a function that is not inlined, it is called in the
end. -/
theorem mem_directCallees_of_chain (hid : bodies id = none)
    (hcalls : ∀ op ∈ f'.calls, ¬DirectCall bodies op)
    (hleads : ∃ first ∈ f.directCallees, Relation.ReflTransGen (CallsByName bodies) first id) :
    id ∈ f'.directCallees := by
  induction hsteps using Relation.ReflTransGen.head_induction_on with
  | refl =>
      obtain ⟨first, hfirst, hchain⟩ := hleads
      rcases Relation.ReflTransGen.cases_head hchain with rfl | ⟨_, ⟨g, hg, _⟩, _⟩
      · exact hfirst
      · rw [Function.directCallees_eq, List.mem_filterMap] at hfirst
        obtain ⟨op, hop, hdirect⟩ := hfirst
        exact absurd ⟨first, g, hdirect, hg⟩ (hcalls op hop)
  | head hstep _ ih => exact ih (hstep.leads hid hleads)

theorem handsOut_of_mem_directCallees (h : id ∈ f'.directCallees) :
    f.HandsOut id ∨ ∃ k g, bodies k = some g ∧ g.HandsOut id := by
  have hmentions : ∃ op ∈ f'.calls, op.Mentions id := by
    rw [Function.directCallees_eq, List.mem_filterMap] at h
    obtain ⟨op, hop, hdirect⟩ := h
    obtain ⟨dest, ty, args, rfl⟩ := Operation.directCallee?_eq_some hdirect
    exact ⟨_, hop, _, List.mem_cons_self, rfl⟩
  clear h
  induction hsteps with
  | refl => exact .inl (.inl hmentions)
  | tail _ hstep ih =>
      rcases hstep.mentions hmentions with hmentions | hbody
      · exact ih hmentions
      · exact .inr hbody

end

end Plan

namespace Module

/-- If flattening succeeds, the globals that pruning left have become stack slots of the root,
whether it calls itself or not, and the report names them in the order of the slots. The flattened
root calls itself if a chain of direct calls led
from the root to the root, and only if some function called the root, passed it to a call or
returned it. If all variables are recorded, it calls itself exactly if some chain of calls led
from the root to a call of the root, where calls of functions that are passed or returned along
the chain count with the direct ones. -/
theorem root_calls_itself {m n : Module} {config : Config} {budget : Nat} {report : Report}
    (h : m.flatten config budget = (.ok report, n)) :
    ∃ plan inlined count f g, config.resolveRoot m = some plan.root ∧
      Plan.compute config m (CallGraph.ofModule m) = .ok plan ∧
      plan.inlineAll budget m = .ok (inlined, count) ∧
      m.function? plan.root = some f ∧ n.function? plan.root = some g ∧ n.globals.entries = [] ∧
      report.globalsLocalized =
        (m.globalsLeftIn (plan.eraseForced inlined).prune).map Global.name ∧
      g.HasSlots (m.globalsLeftIn (plan.eraseForced inlined).prune) ∧
      (Relation.TransGen m.CallsDirectly plan.root plan.root → plan.root ∈ g.directCallees) ∧
      (plan.root ∈ g.directCallees → ∃ id k, m.function? id = some k ∧ k.HandsOut plan.root) ∧
      ((∀ id k, m.function? id = some k → ∀ x ∈ k.defined, x < k.values.length) →
        (plan.root ∈ g.directCallees ↔
          ∃ length, CallsAfter (plan.body? m) plan.root length f.alone)) := by
  obtain ⟨hverified, _, plan, inlined, count, owners, localized, hplan, hinlined, howners,
    hlocalized, rfl, _⟩ := exists_of_flatten h
  have hstale := (defects_eq_nil_iff.mp hverified).1
  have hinto := hinlined
  rw [Plan.inlineAll_eq hstale hplan] at hinto
  obtain ⟨f, hf, _⟩ := Option.map_eq_some_iff.mp
    ((m.get?_kinds plan.root).symm.trans (Plan.kinds_root hstale hplan))
  obtain ⟨hlocal, hnone, _⟩ := census_localize_owners howners hlocalized
  have hdefinitions : localized.sweep.definitions.map Prod.fst = [plan.root] := by
    refine definitions_of_kinds hstale hplan ?_ (localized.sameCensus_sweep.kinds.trans hlocal)
    rw [kinds_eraseForced, (sameCensus_inlineAll hinlined).kinds]
  obtain ⟨g, hg, _⟩ := Option.map_eq_some_iff.mp ((get?_kinds _ plan.root).symm.trans
    (mem_definitions_ids.mp (hdefinitions ▸ List.mem_singleton_self plan.root)))
  obtain ⟨last, hlast, hsteps, hcalls⟩ := Plan.unfolds_of_inlineInto hf (mapError_eq_ok.mp hinto)
  -- no later pass changes whether the root calls itself
  have hlasting := mem_directCallees_of_passes plan.root_not_mem_forced hlocalized hlast hg
  obtain ⟨hnames, hslots⟩ := hasSlots_of_passes hverified hplan hinlined howners hlocalized hg
  refine ⟨plan, inlined, count, f, g, (Plan.compute_eq_ok hplan).1, hplan, hinlined, hf, hg, hnone,
    hnames, hslots, fun hchain => ?_, fun hmem => ?_, fun hrecorded => ?_⟩
  · obtain ⟨first, hfirst, hchain⟩ := Relation.TransGen.head'_iff.mp hchain
    obtain ⟨f', hf', hmem⟩ := callsDirectly_iff.mp hfirst
    obtain rfl := Option.some.inj (hf.symm.trans hf')
    exact hlasting.mpr (Plan.mem_directCallees_of_chain hsteps (plan.body?_root m) hcalls
      ⟨first, hmem, Plan.callsByName_of_chain hplan hchain⟩)
  · rcases Plan.handsOut_of_mem_directCallees hsteps (hlasting.mp hmem) with hout | ⟨k, g, hg, hout⟩
    · exact ⟨plan.root, f, hf, hout⟩
    · exact ⟨k, g, (Plan.body?_eq_some.mp hg).2.1, hout⟩
  · rw [hlasting]
    have houtcome := (Plan.stage_of_verified hverified hrecorded hplan hf).outcome budget
    rw [hinto] at houtcome
    cases houtcome with
    | completed hpath hstage hdone =>
        obtain rfl := Option.some.inj (hstage.root.symm.trans hlast)
        rw [← exists_callsAfter_iff_mem hdone,
          exists_callsAfter_of_splices (plan.body?_root m) hpath]

/-! ## Two roots that call themselves -/

def ticking (callee : FunctionId) (args : List Operand) : Function where
  name := "main"
  returnType := .void
  blocks := [
    { instructions := [
        { op := .load 0 (.int 32) (.const (.global 0)) 4 },
        { op := .binary .add 1 (.int 32) (.var 0) (.i32 1) },
        { op := .store (.var 1) (.const (.global 0)) 4 },
        { op := .call none .void (.const (.function callee)) args }]
      terminator := .ret none }]
  values := [{ ty := .int 32 }, { ty := .int 32 }]

def ticks : Global := { name := "ticks", valueType := .int 32, initializer := some (.i32 0) }

def reentrant : Module :=
  rebuildNames { name := "reentrant", functions := [some (ticking 0 [])], globals := [some ticks] }

theorem compute_reentrant :
    Plan.compute {} reentrant (CallGraph.ofModule reentrant) = .ok { root := 0, order := [0] } :=
  Plan.compute_of_pairwise rfl rfl (by decide) (by decide)

/-- The global has moved into the stack of the root, and the root calls itself: each activation
has a counter of its own. -/
theorem reentrant_localized :
    ∃ report n f, reentrant.flatten {} 0 = (.ok report, n) ∧
      (∃ id g, reentrant.global? id = some g ∧ g.isConstant = false ∧
        g.name ∈ report.globalsLocalized) ∧
      Config.resolveRoot {} reentrant = some 0 ∧ n.function? 0 = some f ∧
      0 ∈ f.directCallees := by
  have hresult : (reentrant.flatten {} 0).1 = .ok
        { root := "main", globalsLocalized := ["ticks"] } ∧
      ((reentrant.flatten {} 0).2.function? 0).any (·.directCallees.contains 0) = true := by
    unfold flatten Pass.standard Pass.runAll Pass.inlining
    simp only [compute_reentrant]
    decide +kernel
  obtain ⟨hreport, hcalls⟩ := hresult
  obtain ⟨f, hf, hmem⟩ := (Option.any_eq_true _ _).mp hcalls
  exact ⟨_, _, f, Prod.ext hreport rfl, ⟨0, ticks, rfl, rfl, List.mem_singleton_self _⟩,
    by decide +kernel, hf, List.contains_iff_mem.mp hmem⟩

def apply : Function where
  name := "apply"
  returnType := .void
  parameters := [0]
  blocks := [
    { instructions := [{ op := .call none .void (.var 0) [] }]
      terminator := .ret none }]
  values := [{ ty := .ptr }]

def passing : Function := ticking 0 [.const (.function 1)]

def calledBack : Module :=
  rebuildNames
    { name := "back", functions := [some apply, some passing], globals := [some ticks] }

theorem compute_calledBack : Plan.compute {} calledBack (CallGraph.ofModule calledBack) =
    .ok { root := 1, order := [0, 1] } :=
  Plan.compute_of_pairwise rfl rfl (by decide) (by decide)

theorem calledBack_calls_itself :
    ∃ report n g, calledBack.flatten {} 1 = (.ok report, n) ∧
      report.globalsLocalized = ["ticks"] ∧ n.function? 1 = some g ∧ 1 ∈ g.directCallees := by
  have hreport : (calledBack.flatten {} 1).1 = .ok
      { root := "main", callsInlined := 1, functionsErased := ["apply"],
        globalsLocalized := ["ticks"] } := by
    unfold flatten Pass.standard Pass.runAll Pass.inlining
    simp only [compute_calledBack]
    decide +kernel
  have h : calledBack.flatten {} 1 = (_, (calledBack.flatten {} 1).2) := Prod.ext hreport rfl
  obtain ⟨plan, _, _, f, g, _, hplan, _, hf, hg, _, _, _, _, _, hexact⟩ := root_calls_itself h
  obtain rfl := Except.ok.inj (compute_calledBack.symm.trans hplan)
  obtain rfl := Option.some.inj hf
  have hrecorded : ∀ id k, calledBack.function? id = some k →
      ∀ x ∈ k.defined, x < k.values.length := by
    intro id k hk
    have hmem : some k ∈ [some apply, some passing] :=
      List.mem_of_getElem? (Arena.get?_eq_some_iff.mp hk)
    simp only [List.mem_cons, Option.some.injEq, List.not_mem_nil, or_false] at hmem
    rcases hmem with rfl | rfl <;> decide
  refine ⟨_, _, g, h, rfl, hg, (hexact hrecorded).mpr ⟨1, ?_⟩⟩
  -- what the inner call calls is known from the outer one
  refine ⟨⟨apply, [.const (.function 1)]⟩ :: passing.alone, ?_, ?_⟩
  · exact .intro (List.mem_singleton_self _) (.intro .const rfl)
  · exact .intro (List.mem_singleton_self _) (.argument (List.mem_singleton_self _) .const)

end Module

end Monolith

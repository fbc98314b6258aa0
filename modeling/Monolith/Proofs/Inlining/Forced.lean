import Monolith.Proofs.Inlining.Chains
import Monolith.Proofs.Verify.VerifiedModule

/-! # Forced inlining step by step

The calls of the root are inlined one by one. Each turn either finds no call that is
left, or finds one that does not fit and gives up, or inlines one.
-/

namespace Monolith

variable {g : Function} {before after : List Instruction} {i : Instruction} {block : Block}

theorem callsOf_split (hcall : i.op.isCall = true) :
    callsOf (before ++ i :: after) = callsOf before ++ i.op :: callsOf after := by
  rw [callsOf_append]
  refine congrArg (callsOf before ++ ·) ?_
  rw [callsOf, List.map_cons, List.filter_cons_of_pos hcall]
  rfl

theorem Function.blockCalls_of_block? {f : Function} {b : BlockId} (h : f.block? b = some block) :
    f.blockCalls[b]? = some (callsOf block.instructions) := by
  have hget : f.blocks[b]? = some block := h
  rw [blockCalls, List.getElem?_map, hget]
  rfl

theorem DirectCall.isCall {bodies : FunctionId → Option Function} {op : Operation}
    (h : DirectCall bodies op) : op.isCall = true := by
  obtain ⟨target, _, hdirect, _⟩ := h
  obtain ⟨dest, ty, args, rfl⟩ := Operation.directCallee?_eq_some hdirect
  rfl

namespace Module

variable {m : Module} {caller : FunctionId} {f : Function} {b : BlockId} {index : Nat}
  {site : CallSite}

/-- A direct call of a function with a body is a place where that body can be put. -/
theorem callSite?_eq_some (hblock : f.block? b = some block)
    (hsplit : block.instructions = before ++ i :: after) {dest : Option ValueId} {ty : Ty}
    {target : FunctionId} {args : List Operand}
    (hop : i.op = .call dest ty (.const (.function target)) args) (hg : m.function? target = some g)
    (hdefined : g.isDeclaration = false) :
    Function.callSite? m f b before.length = some ⟨dest, ty, g, args⟩ := by
  simp [Function.callSite?, hblock, hsplit, hop, Operand.function?, Constant.function?, hg,
    hdefined]

theorem exists_inlineCall_eq_error (hcaller : m.function? caller = some f)
    (hsite : Function.callSite? m f b index = some site)
    (hfits : ¬Frame.Fits ⟨site.callee, site.args⟩) :
    ∃ reason, m.inlineCall caller b index = .error (.rejected reason) := by
  rw [inlineCall, hcaller]
  simp only [hsite]
  split
  next => exact ⟨_, rfl⟩
  next hfixed =>
    rw [if_pos fun harity => hfits ⟨Bool.eq_false_of_not_eq_true hfixed, harity⟩]
    exact ⟨_, rfl⟩

end Module

namespace Plan

/-- The body that calls of the function are replaced by. -/
def body? (plan : Plan) (m : Module) (id : FunctionId) : Option Function :=
  if plan.forces id then (m.function? id).filter fun f => !f.isDeclaration else none

theorem body?_eq_some {plan : Plan} {m : Module} {id : FunctionId} :
    plan.body? m id = some g ↔
      plan.forces id = true ∧ m.function? id = some g ∧ g.isDeclaration = false := by
  simp [body?, Option.filter_eq_some_iff]

theorem forcesCall_iff {plan : Plan} {m : Module} {op : Operation} :
    plan.forcesCall m op = true ↔ DirectCall (plan.body? m) op := by
  simp only [forcesCall, DirectCall, body?_eq_some, Option.any_eq_true, Bool.and_eq_true,
    Bool.not_eq_true']
  constructor
  · rintro ⟨target, hdirect, hforces, g, hg, hbody⟩
    exact ⟨target, g, hdirect, hforces, hg, hbody⟩
  · rintro ⟨target, g, hdirect, hforces, hg, hbody⟩
    exact ⟨target, hdirect, hforces, g, hg, hbody⟩

section

variable {plan : Plan} {m : Module} {f : Function}

theorem not_directCall {instructions : List Instruction}
    (h : ∀ i ∈ instructions, plan.forcesCall m i.op = false) :
    ∀ op ∈ callsOf instructions, ¬DirectCall (plan.body? m) op := by
  intro op hop
  obtain ⟨i, hi, rfl⟩ := List.mem_map.mp (List.mem_filter.mp hop).1
  rw [← forcesCall_iff, h i hi]
  exact Bool.false_ne_true

theorem not_directCall_of_nextCall?_eq_none (hroot : m.function? plan.root = some f)
    (h : plan.nextCall? m plan.root = none) :
    ∀ op ∈ f.calls, ¬DirectCall (plan.body? m) op := by
  intro op hop
  simp only [nextCall?, hroot, Option.bind_eq_bind, Option.bind_some,
    List.findSome?_eq_none_iff, Option.map_eq_none_iff, List.findIdx?_eq_none_iff] at h
  obtain ⟨calls, hcalls, hop⟩ := List.mem_flatten.mp hop
  obtain ⟨block, hblock, rfl⟩ := List.mem_map.mp hcalls
  obtain ⟨b, hb⟩ := List.getElem?_of_mem hblock
  refine not_directCall (fun i hi => ?_) op hop
  exact h (block, b) (List.mem_zipIdx_iff_getElem?.mpr hb) i hi

/-- The next call is the first of those that are left, in the order of the blocks. -/
theorem exists_of_nextCall? (hroot : m.function? plan.root = some f) {b : BlockId} {index : Nat}
    (h : plan.nextCall? m plan.root = some (b, index)) :
    ∃ block before i after, f.block? b = some block ∧
      block.instructions = before ++ i :: after ∧ before.length = index ∧
      DirectCall (plan.body? m) i.op ∧ (∀ op ∈ callsOf before, ¬DirectCall (plan.body? m) op) ∧
      ∀ op ∈ (f.blockCalls.take b).flatten, ¬DirectCall (plan.body? m) op := by
  simp only [nextCall?, hroot, Option.bind_eq_bind, Option.bind_some] at h
  obtain ⟨front, entry, back, hsplit, hfound, hfront⟩ := List.findSome?_eq_some_iff.mp h
  have hget : f.blocks.zipIdx[front.length]? = some entry := by
    rw [hsplit, List.getElem?_append_right (Nat.le_refl _), Nat.sub_self]
    rfl
  rw [List.getElem?_zipIdx, Nat.zero_add] at hget
  obtain ⟨block, hblock, rfl⟩ := Option.map_eq_some_iff.mp hget
  have hblocks : f.blocks = front.map Prod.fst ++ block :: back.map Prod.fst := by
    rw [← List.zipIdx_map_fst 0 f.blocks, hsplit, List.map_append, List.map_cons]
  obtain ⟨found, hindex, heq⟩ := Option.map_eq_some_iff.mp hfound
  obtain ⟨rfl, rfl⟩ := Prod.mk.inj heq
  dsimp only at hindex
  obtain ⟨hlt, hforces, hearlier⟩ := List.findIdx?_eq_some_iff_getElem.mp hindex
  refine ⟨_, _, block.instructions[found], _, hblock,
    (List.take_append_drop found _).symm.trans (by rw [List.drop_eq_getElem_cons hlt]),
    List.length_take_of_le (Nat.le_of_lt hlt), forcesCall_iff.mp hforces,
    not_directCall fun i hi => ?_, ?_⟩
  · obtain ⟨j, hj, rfl⟩ := List.mem_take_iff_getElem.mp hi
    exact Bool.eq_false_of_not_eq_true (hearlier j (Nat.lt_of_lt_of_le hj (Nat.min_le_left _ _)))
  · intro op hop
    rw [Function.blockCalls, hblocks, List.map_append, List.take_left' (by simp)] at hop
    obtain ⟨calls, hcalls, hop⟩ := List.mem_flatten.mp hop
    obtain ⟨_, hother, rfl⟩ := List.mem_map.mp hcalls
    obtain ⟨entry, hentry, rfl⟩ := List.mem_map.mp hother
    have hnone := List.findIdx?_eq_none_iff.mp (Option.map_eq_none_iff.mp (hfront entry hentry))
    exact not_directCall hnone op hop

/-- Putting another body in place of the root does not change what is inlined. -/
theorem body?_setFunction (hroot : m.function? plan.root = some f) (g : Function) :
    plan.body? (m.setFunction plan.root g) = plan.body? m := by
  funext id
  unfold body?
  split
  next hforces =>
    have hne : plan.root ≠ id := by
      rintro rfl
      simp [forces] at hforces
    rw [Module.function?_setFunction hroot, if_neg hne]
  next => rfl

end

/-- A module in which the root has come to be the given function, while everything that
is inlined is as it was. -/
structure Stage (plan : Plan) (bodies : FunctionId → Option Function) (m : Module) (f : Function) :
    Prop where
  root : m.function? plan.root = some f
  bodies_eq : plan.body? m = bodies
  tidy : f.TidyCalls
  entry_lt : f.entry < f.blocks.length
  tidy_bodies : ∀ id g, bodies id = some g → g.TidyBody

inductive Turn (plan : Plan) (bodies : FunctionId → Option Function) (m : Module) (f : Function) :
    Prop where
  | done (hnext : plan.nextCall? m plan.root = none)
      (hcalls : ∀ op ∈ f.calls, ¬DirectCall bodies op)
  | rejected {b : BlockId} {index : Nat} {reason : Rejection}
      (hnext : plan.nextCall? m plan.root = some (b, index))
      (hcall : m.inlineCall plan.root b index = .error (.rejected reason))
      (hmisfit : MisfitAfter bodies 1 f.alone)
  | inlined {b : BlockId} {index : Nat} {n : Module} (sp : Splice bodies) (hcaller : sp.caller = f)
      (hnext : plan.nextCall? m plan.root = some (b, index))
      (hcall : m.inlineCall plan.root b index = .ok (some n))
      (hstage : plan.Stage bodies n sp.result)
      (hfirst : ∀ op ∈ sp.front.flatten ++ sp.before, ¬DirectCall bodies op)

namespace Stage

variable {plan : Plan} {bodies : FunctionId → Option Function} {m : Module} {f : Function}

theorem setFunction (stage : plan.Stage bodies m f) (htidy : g.TidyCalls)
    (hentry : g.entry < g.blocks.length) : plan.Stage bodies (m.setFunction plan.root g) g where
  root := (Module.function?_setFunction stage.root g _).trans (if_pos rfl)
  bodies_eq := (body?_setFunction stage.root g).trans stage.bodies_eq
  tidy := htidy
  entry_lt := hentry
  tidy_bodies := stage.tidy_bodies

/-- A direct call that fits can be inlined. -/
theorem exists_splice (stage : plan.Stage bodies m f) {b : BlockId}
    (hblock : f.block? b = some block) (hsplit : block.instructions = before ++ i :: after)
    {dest : Option ValueId} {ty : Ty} {target : FunctionId} {args : List Operand}
    (hop : i.op = .call dest ty (.const (.function target)) args) (hbody : bodies target = some g)
    (hfits : Frame.Fits ⟨g, args⟩) :
    ∃ sp : Splice bodies, sp.caller = f ∧ sp.front = f.blockCalls.take b ∧
      sp.before = callsOf before ∧
      f.inlineBody ⟨dest, ty, g, args⟩ b before.length = .ok sp.result ∧
      sp.result.entry < sp.result.blocks.length := by
  have hcalls : callsOf block.instructions = callsOf before ++ i.op :: callsOf after := by
    rw [hsplit]
    exact callsOf_split (hop ▸ rfl)
  have hget := Function.blockCalls_of_block? hblock
  obtain ⟨hlt, hcall⟩ := List.getElem?_eq_some_iff.mp hget
  have hb : b < f.blocks.length := (List.getElem?_eq_some_iff.mp hblock).1
  obtain ⟨result, hresult, hentry, hvalues⟩ :=
    Function.exists_inlineBody ⟨dest, ty, g, args⟩ before.length hb stage.entry_lt
      (stage.tidy_bodies target g hbody).entry_lt
  have hresultCalls := Function.blockCalls_inlineBody hblock hresult
  rw [List.set_eq_take_append_cons_drop, if_pos hlt, hsplit, List.take_left,
    List.drop_length_add_append] at hresultCalls
  exact ⟨{
    caller := f
    result
    site := ⟨dest, ty, g, args⟩
    target
    front := f.blockCalls.take b
    before := callsOf before
    after := callsOf after
    back := f.blockCalls.drop (b + 1)
    body := hbody
    caller_calls := by
      rw [← hop, ← hcalls, ← hcall, ← List.drop_eq_getElem_cons hlt, List.take_append_drop]
    result_calls := hresultCalls
    result_values := hvalues
    fits := hfits
    tidy := stage.tidy
    tidy_bodies := stage.tidy_bodies }, rfl, rfl, rfl, hresult, hentry⟩

theorem turn (stage : plan.Stage bodies m f) : plan.Turn bodies m f := by
  cases hnext : plan.nextCall? m plan.root with
  | none =>
      have hcalls := not_directCall_of_nextCall?_eq_none stage.root hnext
      rw [stage.bodies_eq] at hcalls
      exact .done hnext hcalls
  | some place =>
      obtain ⟨b, index⟩ := place
      obtain ⟨block, before, i, after, hblock, hsplit, rfl, hdirect, hbefore, hfront⟩ :=
        exists_of_nextCall? stage.root hnext
      rw [stage.bodies_eq] at hdirect hbefore hfront
      obtain ⟨target, g, hcallee, hbody⟩ := hdirect
      obtain ⟨dest, ty, args, hop⟩ := Operation.directCallee?_eq_some hcallee
      obtain ⟨hforces, hg, hdefined⟩ := body?_eq_some.mp (stage.bodies_eq ▸ hbody)
      have hsite := Module.callSite?_eq_some hblock hsplit hop hg hdefined
      by_cases hfits : Frame.Fits ⟨g, args⟩
      · obtain ⟨sp, hcaller, hspFront, hspBefore, hresult, hentry⟩ :=
          stage.exists_splice hblock hsplit hop hbody hfits
        refine .inlined sp hcaller hnext
          (Module.inlineCall_eq_ok stage.root hsite hfits.1 hfits.2 hresult)
          (stage.setFunction Splice.result_tidy hentry) fun op hop => ?_
        rw [hspFront, hspBefore] at hop
        exact (List.mem_append.mp hop).elim (hfront op) (hbefore op)
      · obtain ⟨reason, hreason⟩ := Module.exists_inlineCall_eq_error stage.root hsite hfits
        have hmem : i.op ∈ f.calls := by
          refine List.mem_flatten.mpr ⟨callsOf block.instructions, ?_, ?_⟩
          · exact List.mem_of_getElem? (Function.blockCalls_of_block? hblock)
          · rw [hsplit, callsOf_split (hop ▸ rfl)]
            exact List.mem_append_right _ List.mem_cons_self
        rw [hop] at hmem
        exact .rejected hnext hreason ⟨_, .intro hmem (.intro .const hbody), hfits⟩

end Stage

/-! ## Runs -/

/-- The second function is the first one after a call of it has been inlined. -/
def Splices (bodies : FunctionId → Option Function) (f g : Function) : Prop :=
  ∃ sp : Splice bodies, sp.caller = f ∧ sp.result = g

def inlineRoot (plan : Plan) (budget : Nat) (m : Module) : Except Failure (Module × Nat) :=
  (plan.inlineInto plan.root budget m).mapError Aborted.failure

/-- What a run comes to: no call is left, or it has come to one that does not fit, or
the budget is used up. -/
inductive Outcome (plan : Plan) (bodies : FunctionId → Option Function) (f : Function) :
    Except Failure (Module × Nat) → Prop where
  | completed {g : Function} {n : Module} {count : Nat}
      (hpath : Relation.ReflTransGen (Splices bodies) f g) (hstage : plan.Stage bodies n g)
      (hcalls : ∀ op ∈ g.calls, ¬DirectCall bodies op) : Outcome plan bodies f (.ok (n, count))
  | rejected {g : Function} {reason : Rejection}
      (hpath : Relation.ReflTransGen (Splices bodies) f g)
      (hmisfit : MisfitAfter bodies 1 g.alone) : Outcome plan bodies f (.error (.rejected reason))
  | exhausted : Outcome plan bodies f (.error .budgetExhausted)

def Halts (plan : Plan) (m : Module) : Prop :=
  ∃ budget, plan.inlineRoot budget m ≠ .error .budgetExhausted

section

variable {plan : Plan} {bodies : FunctionId → Option Function} {m n : Module} {f : Function}
  {b : BlockId} {index : Nat}

theorem inlineRoot_of_done (hnext : plan.nextCall? m plan.root = none) (budget : Nat) :
    plan.inlineRoot budget m = .ok (m, 0) := by
  cases budget <;> simp [inlineRoot, inlineInto, hnext]

theorem inlineRoot_zero (hnext : plan.nextCall? m plan.root = some (b, index)) :
    plan.inlineRoot 0 m = .error .budgetExhausted := by
  simp [inlineRoot, inlineInto, hnext]

theorem inlineRoot_of_rejected (hnext : plan.nextCall? m plan.root = some (b, index))
    {failure : Failure} (hcall : m.inlineCall plan.root b index = .error failure) (budget : Nat) :
    plan.inlineRoot (budget + 1) m = .error failure := by
  simp only [inlineRoot, inlineInto, hnext, hcall]
  rfl

theorem inlineRoot_of_inlined (hnext : plan.nextCall? m plan.root = some (b, index))
    (hcall : m.inlineCall plan.root b index = .ok (some n)) (budget : Nat) :
    plan.inlineRoot (budget + 1) m =
      (plan.inlineRoot budget n).map fun last => (last.1, last.2 + 1) := by
  simp only [inlineRoot, inlineInto, hnext, hcall]
  change ((plan.inlineInto plan.root budget n >>= _).mapError _) = _
  cases plan.inlineInto plan.root budget n <;> rfl

theorem Outcome.of_splice {sp : Splice bodies} {last : Except Failure (Module × Nat)}
    (h : plan.Outcome bodies sp.result last) :
    plan.Outcome bodies sp.caller (last.map fun last => (last.1, last.2 + 1)) := by
  have hstep : Splices bodies sp.caller sp.result := ⟨sp, rfl, rfl⟩
  cases h with
  | completed hpath hstage hcalls => exact .completed (.head hstep hpath) hstage hcalls
  | rejected hpath hmisfit => exact .rejected (.head hstep hpath) hmisfit
  | exhausted => exact .exhausted

theorem Stage.outcome (stage : plan.Stage bodies m f) (budget : Nat) :
    plan.Outcome bodies f (plan.inlineRoot budget m) := by
  induction budget generalizing m f with
  | zero =>
      cases stage.turn with
      | done hnext hcalls =>
          rw [inlineRoot_of_done hnext]
          exact .completed .refl stage hcalls
      | rejected hnext =>
          rw [inlineRoot_zero hnext]
          exact .exhausted
      | inlined _ _ hnext =>
          rw [inlineRoot_zero hnext]
          exact .exhausted
  | succ budget ih =>
      cases stage.turn with
      | done hnext hcalls =>
          rw [inlineRoot_of_done hnext]
          exact .completed .refl stage hcalls
      | rejected hnext hcall hmisfit =>
          rw [inlineRoot_of_rejected hnext hcall]
          exact .rejected .refl hmisfit
      | inlined sp hcaller hnext hcall hstage _ =>
          subst hcaller
          rw [inlineRoot_of_inlined hnext hcall]
          exact (ih hstage).of_splice

/-- What a caller has if it is so after a call of it was inlined, it has if it is so in the end. -/
theorem of_splices {P : Function → Prop} (hstep : ∀ sp : Splice bodies, P sp.result → P sp.caller)
    (hpath : Relation.ReflTransGen (Splices bodies) f g) (h : P g) : P f := by
  induction hpath using Relation.ReflTransGen.head_induction_on with
  | refl => exact h
  | head hfirst _ ih =>
      obtain ⟨sp, rfl, rfl⟩ := hfirst
      exact hstep sp ih

/-- A run that ends has followed all chains of calls, or one that leads to a misfit. -/
theorem Stage.of_halts (stage : plan.Stage bodies m f) (h : plan.Halts m) :
    (∃ k, ChainsWithin bodies k f.alone) ∨ ∃ k, MisfitAfter bodies (k + 1) f.alone := by
  obtain ⟨budget, hbudget⟩ := h
  have houtcome := stage.outcome budget
  generalize plan.inlineRoot budget m = last at hbudget houtcome
  cases houtcome with
  | completed hpath _ hcalls =>
      refine .inl (of_splices (P := fun g => ∃ k, ChainsWithin bodies k g.alone) ?_ hpath
        ⟨0, fun next henters => ?_⟩)
      · rintro sp ⟨k, hchains⟩
        exact ⟨k + 1, Splice.chainsWithin_caller hchains⟩
      · obtain ⟨op, hop, hdirect⟩ := henters.exists_directCall
        exact hcalls op hop hdirect
  | rejected hpath hmisfit =>
      refine .inr (of_splices (P := fun g => ∃ k, MisfitAfter bodies (k + 1) g.alone) ?_ hpath
        ⟨0, hmisfit⟩)
      rintro sp ⟨k, hmisfit⟩
      exact Splice.exists_misfitAfter_caller hmisfit
  | exhausted => exact absurd rfl hbudget

theorem Halts.of_done (hnext : plan.nextCall? m plan.root = none) : plan.Halts m := by
  refine ⟨0, ?_⟩
  rw [inlineRoot_of_done hnext]
  exact nofun

theorem Halts.of_rejected (hnext : plan.nextCall? m plan.root = some (b, index))
    {reason : Rejection} (hcall : m.inlineCall plan.root b index = .error (.rejected reason)) :
    plan.Halts m := by
  refine ⟨1, ?_⟩
  rw [inlineRoot_of_rejected hnext hcall]
  exact nofun

theorem Halts.of_inlined (hnext : plan.nextCall? m plan.root = some (b, index))
    (hcall : m.inlineCall plan.root b index = .ok (some n)) (h : plan.Halts n) : plan.Halts m := by
  obtain ⟨budget, hbudget⟩ := h
  refine ⟨budget + 1, ?_⟩
  rw [inlineRoot_of_inlined hnext hcall]
  cases hlast : plan.inlineRoot budget n with
  | ok last => exact nofun
  | error failure =>
      rw [hlast] at hbudget
      exact fun heq => hbudget (congrArg Except.error (Except.error.inj heq))

/-- If chains of calls are bounded, the run ends: the numbers of the calls, taken together,
get smaller with each call that is inlined. -/
theorem Stage.halts_of_labelled (stage : plan.Stage bodies m f)
    {labels : Multiset (Operation × Nat)} (h : Labelled bodies f labels) : plan.Halts m := by
  generalize hnumbers : labels.map Prod.snd = numbers
  induction numbers using (Nat.lt_wfRel.wf.cutExpand).induction generalizing m f labels with
  | _ numbers ih =>
      cases stage.turn with
      | done hnext => exact .of_done hnext
      | rejected hnext hcall => exact .of_rejected hnext hcall
      | inlined sp hcaller hnext hcall hstage _ =>
          subst hcaller hnumbers
          obtain ⟨labels', hlabels', hless⟩ := h.exists_result
          exact .of_inlined hnext hcall (ih _ hless hstage hlabels' rfl)

end

end Plan

end Monolith

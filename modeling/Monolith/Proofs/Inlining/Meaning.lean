import Monolith.Proofs.Inlining.Points
import Monolith.Proofs.Inlining.VerifiedCallers

/-! # The meaning of a program after inlining

A run before inlining has the outcome of the run after it, and the other way round. In
the callee, the run after inlining is in a copy; what it does once the copy is left is
what the caller does behind the call.
-/

namespace Monolith

variable {g f : Function} {first : Block}

/-- An operation completes if one that matches it does, with what follows it. -/
theorem Interpretation.Matches.operation {I : Interpretation} {n : Module} {id : FunctionId}
    {b' : BlockId} {rest' : List Instruction} {env env' : Env I.Value} {i i' : Instruction}
    {values : List I.Value} {w : I.World} {out : I.Outcome} (h : I.Matches env env' i i')
    (hphi : i.op.isPhi = false) (hbody : n.body? i'.op = none)
    (hvalues : I.evalAll env i.op.operands = some values)
    (hrest : I.Completes n id b' rest'
      (env'.assign i'.op.dest? (I.operation i.op.shape values w).1)
      (I.operation i.op.shape values w).2 out) : I.Completes n id b' (i' :: rest') env' w out := by
  rw [← h.shape] at hrest
  exact .operation (h.isPhi.trans hphi) hbody (h.values.trans hvalues) hrest

namespace SoundInlining

open Inlining

/-! ## From the run before inlining to the run after it -/

/-- What a run before inlining says of the run after it: in the caller, at the point that
corresponds; in the callee, in the copy, if what comes behind the call completes. -/
structure Simulated (inl : SoundInlining) (I : Interpretation) (n : Module)
    (caller callee id : FunctionId) (b : BlockId) (rest : List Instruction) (env : Env I.Value)
    (w : I.World) (out : I.Outcome) : Prop where
  elsewhere : id ≠ caller → I.Completes n id b rest env w out
  in_caller : id = caller → ∀ b' rest' env', inl.InCaller I b rest env b' rest' env' →
    I.Completes n caller b' rest' env' w out
  in_callee : id = callee → ∀ env₀ b' rest' env' out',
    inl.InCopy I env₀ b rest env b' rest' env' →
    (∀ rest₁ env₁,
      inl.InCaller I inl.block inl.after (inl.resume I env₀ out.1) inl.cont rest₁ env₁ →
      I.Completes n caller inl.cont rest₁ env₁ out.2 out') →
    I.Completes n caller b' rest' env' w out'

namespace Between

variable {inl : SoundInlining} {m n : Module} {caller callee : FunctionId}
  (h : inl.Between m n caller callee) {I : Interpretation} {id : FunctionId} {b : BlockId}
  {rest : List Instruction} {i : Instruction} {env : Env I.Value} {w w₁ : I.World} {out : I.Outcome}

include h

/-- What is simulated from its start runs. -/
theorem runs_of_simulated {values : List I.Value} (hg : m.function? id = some g)
    (hfirst : g.block? g.entry = some first) (hlength : g.parameters.length ≤ values.length)
    (hsim : inl.Simulated I n caller callee id g.entry first.instructions
      (Env.ofArguments g.parameters values) w out) : I.Runs n id values w out := by
  by_cases hid : id = caller
  · subst hid
    obtain rfl := Option.some.inj (h.caller_eq.symm.trans hg)
    refine ⟨inl.result, _, h.result_eq, inl.result_of_block? hfirst, hlength, ?_⟩
    exact hsim.in_caller rfl _ _ _ ⟨_, _, placed_start hfirst, h.instructions_callerBlock _ _,
      inl.caller.reached_entry, agrees_start hlength⟩
  · exact ⟨g, first, (h.others_eq id hid).trans hg, hfirst, hlength, hsim.elsewhere hid⟩

theorem simulated_operation {values : List I.Value} (hphi : i.op.isPhi = false)
    (hbody : m.body? i.op = none) (hvalues : I.evalAll env i.op.operands = some values)
    (hrest : inl.Simulated I n caller callee id b rest
      (env.assign i.op.dest? (I.operation i.op.shape values w).1)
      (I.operation i.op.shape values w).2 out) :
    inl.Simulated I n caller callee id b (i :: rest) env w out := by
  refine ⟨fun hid => ?_, fun hid b' rest' env' hat => ?_,
    fun hid env₀ b' rest' env' out' hat hafter => ?_⟩
  · exact .operation hphi ((h.body?_eq_none_iff rfl).mpr hbody) hvalues (hrest.elsewhere hid)
  · rcases h.next_caller hat with ⟨_, _, tail', heq, rfl, hmatches, hnext⟩ |
      ⟨_, heq, _⟩ | ⟨heq, _⟩
    · obtain ⟨rfl, rfl⟩ := List.cons.inj heq
      have hmatches := hmatches hphi
      exact hmatches.operation hphi ((h.body?_eq_none_iff hmatches.callee).mpr hbody) hvalues
        (hrest.in_caller hid _ _ _ (hnext _))
    · obtain ⟨rfl, _⟩ := List.cons.inj heq
      exact absurd hbody h.body?_call
    · cases heq
  · obtain ⟨tail', rfl, hmatches, hnext⟩ := h.next_copy hat
    have hmatches := hmatches hphi
    exact hmatches.operation hphi ((h.body?_eq_none_iff hmatches.callee).mpr hbody) hvalues
      (hrest.in_callee hid _ _ _ _ _ (hnext _) hafter)

theorem simulated_call {dest : Option ValueId} {ty : Ty} {target : FunctionId} {args : List Operand}
    {values : List I.Value} {value : Option I.Value}
    (hop : i.op = .call dest ty (.const (.function target)) args) (hg : m.function? target = some g)
    (hfirst : g.block? g.entry = some first) (hvalues : I.evalAll env args = some values)
    (hlength : g.parameters.length ≤ values.length)
    (hrun : inl.Simulated I n caller callee target g.entry first.instructions
      (Env.ofArguments g.parameters values) w (value, w₁))
    (hrest : inl.Simulated I n caller callee id b rest
      (env.assign dest (value.getD (I.constant (.poison ty)))) w₁ out) :
    inl.Simulated I n caller callee id b (i :: rest) env w out := by
  have hphi : i.op.isPhi = false := by
    rw [hop]
    rfl
  obtain ⟨g', first', hg', hfirst', hlength', hrun'⟩ := h.runs_of_simulated hg hfirst hlength hrun
  refine ⟨fun hid => ?_, fun hid b' rest' env' hat => ?_,
    fun hid env₀ b' rest' env' out' hat hafter => ?_⟩
  · exact .call hop hg' hfirst' hvalues hlength' hrun' (hrest.elsewhere hid)
  · rcases h.next_caller hat with ⟨_, _, tail', heq, rfl, hmatches, hnext⟩ |
      ⟨rfl, heq, rfl, rfl, hreached, hagrees⟩ | ⟨heq, _⟩
    · obtain ⟨rfl, rfl⟩ := List.cons.inj heq
      obtain ⟨dest', args', hop', hargs⟩ := (hmatches hphi).call hop
      rw [hop, hop'] at hnext
      exact .call hop' hg' hfirst' (hargs.trans hvalues) hlength' hrun'
        (hrest.in_caller hid _ _ _ (hnext _))
    · -- The run of the callee is one of its copy.
      obtain ⟨rfl, rfl⟩ := List.cons.inj heq
      rw [inl.call_eq, h.target_eq] at hop
      obtain ⟨rfl, rfl, hcallee, rfl⟩ := Operation.call.inj hop
      obtain rfl := Constant.function.inj (Operand.const.inj hcallee)
      obtain rfl := Option.some.inj (h.callee_eq.symm.trans hg)
      refine .goto h.result_eq ((h.passes_block_iff hfirst).mpr ⟨rfl, rfl, rfl⟩) ?_
      exact hrun.in_callee rfl _ _ _ _ _ (inCopy_start hfirst hreached hagrees hvalues)
        fun rest₁ env₁ => hrest.in_caller hid _ rest₁ env₁
    · cases heq
  · obtain ⟨tail', rfl, hmatches, hnext⟩ := h.next_copy hat
    obtain ⟨dest', args', hop', hargs⟩ := (hmatches hphi).call hop
    rw [hop, hop'] at hnext
    exact .call hop' hg' hfirst' (hargs.trans hvalues) hlength' hrun'
      (hrest.in_callee hid _ _ _ _ _ (hnext _) hafter)

theorem simulated_goto {target : BlockId} {env₁ : Env I.Value} (hf : m.function? id = some f)
    (hpasses : I.Passes f b env target rest env₁)
    (hrest : inl.Simulated I n caller callee id target rest env₁ w out) :
    inl.Simulated I n caller callee id b [] env w out := by
  refine ⟨fun hid => ?_, fun hid b' rest' env' hat => ?_,
    fun hid env₀ b' rest' env' out' hat hafter => ?_⟩
  · exact .goto ((h.others_eq _ hid).trans hf) hpasses (hrest.elsewhere hid)
  · subst hid
    obtain rfl := Option.some.inj (h.caller_eq.symm.trans hf)
    obtain ⟨rfl, rfl, hreached, hagrees⟩ := h.end_caller hat
    obtain ⟨rest₁, env₁', hpasses', hnext⟩ := h.passes_caller hreached hagrees hpasses
    exact .goto h.result_eq hpasses' (hrest.in_caller rfl _ _ _ hnext)
  · subst hid
    obtain rfl := Option.some.inj (h.callee_eq.symm.trans hf)
    obtain ⟨rfl, rfl, houter, hreached, hagrees, hmirrors⟩ := end_copy hat
    obtain ⟨rest₁, env₁', hpasses', hnext⟩ :=
      h.passes_copy houter hreached hagrees hmirrors hpasses
    exact .goto h.result_eq hpasses' (hrest.in_callee rfl _ _ _ _ _ hnext hafter)

theorem simulated_finish {value : Option I.Value} (hf : m.function? id = some f)
    (hreturns : I.Returns f b env value) :
    inl.Simulated I n caller callee id b [] env w (value, w) := by
  refine ⟨fun hid => ?_, fun hid b' rest' env' hat => ?_,
    fun hid env₀ b' rest' env' out' hat hafter => ?_⟩
  · exact .finish ((h.others_eq _ hid).trans hf) hreturns
  · subst hid
    obtain rfl := Option.some.inj (h.caller_eq.symm.trans hf)
    obtain ⟨rfl, rfl, hreached, hagrees⟩ := h.end_caller hat
    exact .finish h.result_eq ((returns_caller_iff hreached hagrees).mpr hreturns)
  · subst hid
    obtain rfl := Option.some.inj (h.callee_eq.symm.trans hf)
    obtain ⟨rfl, rfl, houter, hreached, hagrees, hmirrors⟩ := end_copy hat
    obtain ⟨rest₁, env₁', hpasses', hnext⟩ := returns_copy houter hagrees hmirrors hreturns
    exact .goto h.result_eq hpasses' (hafter _ _ hnext)

theorem simulated (hcompletes : I.Completes m id b rest env w out) :
    inl.Simulated I n caller callee id b rest env w out := by
  induction hcompletes with
  | operation hphi hbody hvalues _ ih => exact h.simulated_operation hphi hbody hvalues ih
  | call hop hg hfirst hvalues hlength _ _ ihrun ihrest =>
      exact h.simulated_call hop hg hfirst hvalues hlength ihrun ihrest
  | goto hf hpasses _ ih => exact h.simulated_goto hf hpasses ih
  | finish hf hreturns => exact h.simulated_finish hf hreturns

end Between

/-! ## From the run after inlining to the run before it -/

/-- What a run after inlining says of the run before it: a run in a copy is one of the
callee, followed by what the caller does behind the call. -/
structure Reflected (inl : SoundInlining) (I : Interpretation) (m : Module)
    (caller callee id : FunctionId) (b' : BlockId) (rest' : List Instruction) (env' : Env I.Value)
    (w : I.World) (out : I.Outcome) : Prop where
  elsewhere : id ≠ caller → I.Completes m id b' rest' env' w out
  in_caller : id = caller → ∀ b rest env, inl.InCaller I b rest env b' rest' env' →
    I.Completes m caller b rest env w out
  in_copy : id = caller → ∀ env₀ c rest env, inl.InCopy I env₀ c rest env b' rest' env' →
    ∃ value w₁, I.Completes m callee c rest env w (value, w₁) ∧
      I.Completes m caller inl.block inl.after (inl.resume I env₀ value) w₁ out

namespace Between

variable {inl : SoundInlining} {m n : Module} {caller callee : FunctionId}
  (h : inl.Between m n caller callee) {I : Interpretation} {id : FunctionId} {b' : BlockId}
  {rest' : List Instruction} {i' : Instruction} {env' : Env I.Value} {w w₁ : I.World}
  {out : I.Outcome}

include h

theorem runs_of_reflected {values : List I.Value} (hg : n.function? id = some g)
    (hfirst : g.block? g.entry = some first) (hlength : g.parameters.length ≤ values.length)
    (hreflected : inl.Reflected I m caller callee id g.entry first.instructions
      (Env.ofArguments g.parameters values) w out) : I.Runs m id values w out := by
  by_cases hid : id = caller
  · subst hid
    obtain rfl := Option.some.inj (h.result_eq.symm.trans hg)
    obtain ⟨old, hold⟩ := inl.exists_caller_entry
    obtain rfl := Option.some.inj ((inl.result_of_block? hold).symm.trans hfirst)
    refine ⟨inl.caller, old, h.caller_eq, hold, hlength, ?_⟩
    exact hreflected.in_caller rfl _ _ _ ⟨_, _, placed_start hold,
      h.instructions_callerBlock _ _, inl.caller.reached_entry, agrees_start hlength⟩
  · exact ⟨g, first, (h.others_eq id hid).symm.trans hg, hfirst, hlength,
      hreflected.elsewhere hid⟩

theorem reflected_operation {values : List I.Value} (hphi : i'.op.isPhi = false)
    (hbody : n.body? i'.op = none) (hvalues : I.evalAll env' i'.op.operands = some values)
    (hrest : inl.Reflected I m caller callee id b' rest'
      (env'.assign i'.op.dest? (I.operation i'.op.shape values w).1)
      (I.operation i'.op.shape values w).2 out) :
    inl.Reflected I m caller callee id b' (i' :: rest') env' w out := by
  refine ⟨fun hid => ?_, fun hid b rest env hat => ?_, fun hid env₀ c rest env hat => ?_⟩
  · exact .operation hphi ((h.body?_eq_none_iff rfl).mp hbody) hvalues (hrest.elsewhere hid)
  · rcases h.next_caller hat with ⟨i, tail, tail', rfl, heq, hmatches, hnext⟩ |
      ⟨_, _, _, heq, _⟩ | ⟨_, _, heq, _⟩
    · obtain ⟨rfl, rfl⟩ := List.cons.inj heq
      have hmatches := hmatches ((isPhi_rewrite i).symm.trans hphi)
      exact hmatches.symm.operation hphi ((h.body?_eq_none_iff hmatches.callee).mp hbody) hvalues
        (hrest.in_caller hid _ _ _ (hnext _))
    · cases heq
    · cases heq
  · obtain ⟨i, tail, rfl⟩ := exists_cons_of_copy hat
    obtain ⟨tail', heq, hmatches, hnext⟩ := h.next_copy hat
    obtain ⟨rfl, rfl⟩ := List.cons.inj heq
    have hmatches := hmatches ((isPhi_copyOf i).symm.trans hphi)
    obtain ⟨value, w₁, hrun, hafter⟩ := hrest.in_copy hid _ _ _ _ (hnext _)
    exact ⟨value, w₁, hmatches.symm.operation hphi
      ((h.body?_eq_none_iff hmatches.callee).mp hbody) hvalues hrun, hafter⟩

theorem reflected_call {dest : Option ValueId} {ty : Ty} {target : FunctionId} {args : List Operand}
    {values : List I.Value} {value : Option I.Value}
    (hop : i'.op = .call dest ty (.const (.function target)) args)
    (hg : n.function? target = some g) (hfirst : g.block? g.entry = some first)
    (hvalues : I.evalAll env' args = some values) (hlength : g.parameters.length ≤ values.length)
    (hrun : inl.Reflected I m caller callee target g.entry first.instructions
      (Env.ofArguments g.parameters values) w (value, w₁))
    (hrest : inl.Reflected I m caller callee id b' rest'
      (env'.assign dest (value.getD (I.constant (.poison ty)))) w₁ out) :
    inl.Reflected I m caller callee id b' (i' :: rest') env' w out := by
  have hphi : i'.op.isPhi = false := by
    rw [hop]
    rfl
  obtain ⟨g', first', hg', hfirst', hlength', hrun'⟩ := h.runs_of_reflected hg hfirst hlength hrun
  refine ⟨fun hid => ?_, fun hid b rest env hat => ?_, fun hid env₀ c rest env hat => ?_⟩
  · exact .call hop hg' hfirst' hvalues hlength' hrun' (hrest.elsewhere hid)
  · rcases h.next_caller hat with ⟨i, tail, tail', rfl, heq, hmatches, hnext⟩ |
      ⟨_, _, _, heq, _⟩ | ⟨_, _, heq, _⟩
    · obtain ⟨rfl, rfl⟩ := List.cons.inj heq
      have hmatches := hmatches ((isPhi_rewrite i).symm.trans hphi)
      obtain ⟨dest₀, args₀, hop₀, hargs⟩ := hmatches.symm.call hop
      rw [hop, hop₀] at hnext
      exact .call hop₀ hg' hfirst' (hargs.trans hvalues) hlength' hrun'
        (hrest.in_caller hid _ _ _ (hnext _))
    · cases heq
    · cases heq
  · obtain ⟨i, tail, rfl⟩ := exists_cons_of_copy hat
    obtain ⟨tail', heq, hmatches, hnext⟩ := h.next_copy hat
    obtain ⟨rfl, rfl⟩ := List.cons.inj heq
    have hmatches := hmatches ((isPhi_copyOf i).symm.trans hphi)
    obtain ⟨dest₀, args₀, hop₀, hargs⟩ := hmatches.symm.call hop
    rw [hop, hop₀] at hnext
    obtain ⟨returned, w₂, hcopy, hafter⟩ := hrest.in_copy hid _ _ _ _ (hnext _)
    exact ⟨returned, w₂, .call hop₀ hg' hfirst' (hargs.trans hvalues) hlength' hrun' hcopy, hafter⟩

theorem reflected_goto {target : BlockId} {env₁ : Env I.Value} (hf : n.function? id = some f)
    (hpasses : I.Passes f b' env' target rest' env₁)
    (hrest : inl.Reflected I m caller callee id target rest' env₁ w out) :
    inl.Reflected I m caller callee id b' [] env' w out := by
  refine ⟨fun hid => ?_, fun hid b rest env hat => ?_, fun hid env₀ c rest env hat => ?_⟩
  · exact .goto ((h.others_eq _ hid).symm.trans hf) hpasses (hrest.elsewhere hid)
  · subst hid
    obtain rfl := Option.some.inj (h.result_eq.symm.trans hf)
    rcases h.next_caller hat with ⟨_, _, _, _, heq, _⟩ | ⟨rfl, rfl, rfl, _, hreached, hagrees⟩ |
      ⟨rfl, rfl, _, hreached, hagrees⟩
    · cases heq
    · -- The run of the copy is one of the callee.
      obtain ⟨first, hfirst, _⟩ := inl.exists_entry
      obtain ⟨rfl, rfl, rfl⟩ := (h.passes_block_iff hfirst).mp hpasses
      obtain ⟨values, hvalues, hlength⟩ := exists_arguments hagrees
      obtain ⟨value, w₁, hrun, hafter⟩ :=
        hrest.in_copy rfl _ _ _ _ (inCopy_start hfirst hreached hagrees hvalues)
      have hop := inl.call_eq
      rw [h.target_eq] at hop
      exact .call hop h.callee_eq hfirst hvalues hlength hrun hafter
    · obtain ⟨rest₁, env₁', hpasses', hnext⟩ := h.of_passes_caller hreached hagrees hpasses
      exact .goto h.caller_eq hpasses' (hrest.in_caller rfl _ _ _ hnext)
  · subst hid
    obtain rfl := Option.some.inj (h.result_eq.symm.trans hf)
    obtain rfl := nil_of_copy hat
    obtain ⟨rfl, _, houter, hreached, hagrees, hmirrors⟩ := end_copy hat
    rcases h.of_passes_copy houter hreached hagrees hmirrors hpasses with
      ⟨target', rest₁, env₁', hpasses', hnext⟩ | ⟨value, hreturns, hnext⟩
    · obtain ⟨value, w₁, hrun, hafter⟩ := hrest.in_copy rfl _ _ _ _ hnext
      exact ⟨value, w₁, .goto h.callee_eq hpasses' hrun, hafter⟩
    · exact ⟨value, w, .finish h.callee_eq hreturns, hrest.in_caller rfl _ _ _ hnext⟩

theorem reflected_finish {value : Option I.Value} (hf : n.function? id = some f)
    (hreturns : I.Returns f b' env' value) :
    inl.Reflected I m caller callee id b' [] env' w (value, w) := by
  refine ⟨fun hid => ?_, fun hid b rest env hat => ?_, fun hid env₀ c rest env hat => ?_⟩
  · exact .finish ((h.others_eq _ hid).symm.trans hf) hreturns
  · subst hid
    obtain rfl := Option.some.inj (h.result_eq.symm.trans hf)
    rcases h.next_caller hat with ⟨_, _, _, _, heq, _⟩ | ⟨rfl, _, rfl, _⟩ |
      ⟨rfl, rfl, _, hreached, hagrees⟩
    · cases heq
    · exact absurd hreturns not_returns_block
    · exact .finish h.caller_eq ((returns_caller_iff hreached hagrees).mp hreturns)
  · subst hid
    obtain rfl := Option.some.inj (h.result_eq.symm.trans hf)
    obtain ⟨rfl, _, _, hreached, _⟩ := hat
    obtain ⟨block, hblock⟩ := inl.callee_wellFormed.exists_block hreached
    exact absurd hreturns (not_returns_copy hblock)

theorem reflected (hcompletes : I.Completes n id b' rest' env' w out) :
    inl.Reflected I m caller callee id b' rest' env' w out := by
  induction hcompletes with
  | operation hphi hbody hvalues _ ih => exact h.reflected_operation hphi hbody hvalues ih
  | call hop hg hfirst hvalues hlength _ _ ihrun ihrest =>
      exact h.reflected_call hop hg hfirst hvalues hlength ihrun ihrest
  | goto hf hpasses _ ih => exact h.reflected_goto hf hpasses ih
  | finish hf hreturns => exact h.reflected_finish hf hreturns

theorem runs_iff {values : List I.Value} : I.Runs n id values w out ↔ I.Runs m id values w out := by
  constructor
  · rintro ⟨g, first, hg, hfirst, hlength, hcompletes⟩
    exact h.runs_of_reflected hg hfirst hlength (h.reflected hcompletes)
  · rintro ⟨g, first, hg, hfirst, hlength, hcompletes⟩
    exact h.runs_of_simulated hg hfirst hlength (h.simulated hcompletes)

end Between

end SoundInlining

namespace Module

/-- In a verified module, a direct call of a function with a body can be inlined, and the
module does what it did, if no function is handed to the callee or back and the callee
starts neither with a phi nor with an alloca. -/
theorem inlineCall_keeps_meaning {m : Module} {caller callee : FunctionId} {b : BlockId}
    {index : Nat} {f : Function} {site : CallSite} (hverified : m.defects = [])
    (hcall : m.CallAt caller b index callee f site)
    (hrecorded : ∀ x ∈ f.defined, x < f.values.length)
    (hcalleeRecorded : ∀ x ∈ site.callee.defined, x < site.callee.values.length)
    (hphi : ∀ i ∈ site.callee.body site.callee.entry, i.op.isPhi = false)
    (halloca : ∀ i ∈ (site.callee.body site.callee.entry).head?, i.op.isAlloca = false)
    (hreturns : site.dest.isSome = true → site.callee.ReturnsAgree)
    (hargs : ∀ a ∈ site.args, a.function? = none)
    (hreturned : ∀ block ∈ site.callee.blocks, ∀ value, block.terminator = .ret (some value) →
      value.function? = none) :
    ∃ n, m.inlineCall caller b index = .ok (some n) ∧
      ∀ (I : Interpretation) (id : FunctionId) (values : List I.Value) (w : I.World)
        (out : I.Outcome), I.Runs n id values w out ↔ I.Runs m id values w out := by
  obtain ⟨inl, rfl, rfl, htarget, hinlined⟩ :=
    hcall.exists_inlining hverified hrecorded hcalleeRecorded hphi hreturns
  have hfunction := function?_setFunction hcall.caller_eq inl.result
  have hbetween : inl.Between m (m.setFunction caller inl.result) caller callee := {
    caller_eq := hcall.caller_eq
    callee_eq := hcall.callee_eq
    result_eq := by rw [hfunction, if_pos rfl]
    others_eq := fun other hother => by rw [hfunction, if_neg hother.symm]
    target_eq := htarget
    no_allocas := by
      unfold Inlining.allocas Inlining.entryCopy
      cases hbody : inl.callee.body inl.callee.entry with
      | nil => rfl
      | cons i rest =>
          have hi : i.op.isAlloca = false := halloca i (by simp [hbody])
          simp [Renaming.instruction, hi]
    args_plain := hargs
    returns_plain := hreturned }
  exact ⟨_, hinlined, fun _ _ _ _ _ => hbetween.runs_iff⟩

def pick : Function where
  name := "pick"
  returnType := .int 32
  parameters := [0]
  blocks := [
    { terminator := .branch (.var 0) 1 2 },
    { terminator := .ret (some (.var 0)) },
    { instructions := [{ op := .binary .add 1 (.int 32) (.var 0) (.i32 1) }]
      terminator := .ret (some (.var 1)) }]
  values := [{ ty := .int 32 }, { ty := .int 32 }]

def pickModule : Module where
  name := "pick"
  functions := [some loop, some pick]

theorem pick_completes {I : Interpretation} (hfalse : ∀ v, I.truth v = false) (v : I.Value)
    (w : I.World) :
    ∃ value w₁, I.Completes pickModule 1 0 [] (Env.ofArguments [0] [v]) w (some value, w₁) := by
  have htarget : I.target? (Env.ofArguments [0] [v]) (.branch (.var 0) 1 2) = some 2 := by
    change some (if I.truth v then 1 else 2) = some 2
    rw [hfalse]
    rfl
  have hpasses : I.Passes pick 0 (Env.ofArguments [0] [v]) 2 _ _ := .intro rfl htarget rfl rfl
  exact ⟨_, _, .goto rfl hpasses (.operation rfl rfl rfl (.finish rfl ⟨_, rfl, rfl⟩))⟩

/-- If no condition holds, the loop ends after its first round. -/
theorem pickModule_runs {I : Interpretation} (hfalse : ∀ v, I.truth v = false) (w : I.World) :
    ∃ out, I.Runs pickModule 0 [] w out := by
  obtain ⟨value, w₁, hpick⟩ := pick_completes hfalse (I.constant (.i32 7)) w
  have htarget : ∀ env : Env I.Value,
      I.target? (env.set 1 value) (.branch (.var 1) 1 2) = some 2 := by
    intro env
    change some (if I.truth value then 1 else 2) = some 2
    rw [hfalse]
    rfl
  have hpasses : ∀ env : Env I.Value, I.Passes loop 1 (env.set 1 value) 2 _ _ := fun env =>
    .intro rfl (htarget env) rfl rfl
  refine ⟨(some value, w₁), loop, _, rfl, rfl, Nat.zero_le _,
    .goto rfl (.intro rfl rfl rfl rfl) ?_⟩
  exact .call rfl rfl rfl rfl (Nat.le_refl _) hpick
    (.goto rfl (hpasses _) (.finish rfl ⟨_, rfl, rfl⟩))

/-- The block of the call follows itself, and the callee returns at two places. -/
theorem inlineCall_pick_keeps_meaning :
    pickModule.defects = [] ∧ ∃ n, pickModule.inlineCall 0 1 1 = .ok (some n) ∧
      (∀ (I : Interpretation) (id : FunctionId) (values : List I.Value) (w : I.World)
        (out : I.Outcome), I.Runs n id values w out ↔ I.Runs pickModule id values w out) ∧
      ∀ (I : Interpretation) (w : I.World), (∀ v, I.truth v = false) →
        ∃ out, I.Runs n 0 [] w out := by
  have hverified : pickModule.defects = [] := by decide +kernel
  have hcall : pickModule.CallAt 0 1 1 1 loop
      { dest := some 1, returnType := .int 32, callee := pick, args := [.var 0] } :=
    ⟨rfl, ⟨_, _, rfl, rfl, rfl⟩, rfl, rfl, rfl⟩
  have hreturned : ∀ block ∈ pick.blocks, ∀ value, block.terminator = .ret (some value) →
      value.function? = none := by
    intro block hblock value hterm
    simp only [pick, List.mem_cons, List.not_mem_nil, or_false] at hblock
    rcases hblock with rfl | rfl | rfl <;> cases hterm <;> rfl
  obtain ⟨n, hinlined, hsame⟩ := inlineCall_keeps_meaning hverified hcall (by decide) (by decide)
    (by decide) (by decide) (fun _ => .inl (by decide)) (by decide) hreturned
  refine ⟨hverified, n, hinlined, hsame, fun I w hfalse => ?_⟩
  obtain ⟨out, hruns⟩ := pickModule_runs hfalse w
  exact ⟨out, (hsame I 0 [] w out).mpr hruns⟩

end Module

end Monolith

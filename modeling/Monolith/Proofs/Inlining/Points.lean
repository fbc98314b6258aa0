import Monolith.Proofs.Inlining.Steps

/-! # Points that correspond

A run before inlining and the run after it are at points that correspond: both in the
caller, or one in the callee and the other in its copy. From such points, both take
corresponding steps.
-/

namespace Monolith

variable {block first : Block}

namespace SoundInlining

open Inlining

/-- A point of the caller and one after inlining correspond. -/
def InCaller (inl : SoundInlining) (I : Interpretation) (b : BlockId) (rest : List Instruction)
    (env : Env I.Value) (b' : BlockId) (rest' : List Instruction) (env' : Env I.Value) : Prop :=
  ∃ done kept, inl.Placed b done rest b' kept ∧ rest' = kept.map inl.rewrite ∧
    inl.caller.Reached b ∧ inl.Agrees I b done env env'

/-- A point of the callee and one of its copy correspond, where the call was made in the
given environment. -/
def InCopy (inl : SoundInlining) (I : Interpretation) (env₀ : Env I.Value) (c : BlockId)
    (rest : List Instruction) (env : Env I.Value) (b' : BlockId) (rest' : List Instruction)
    (env' : Env I.Value) : Prop :=
  b' = inl.clone c ∧ rest' = rest.map inl.copyOf ∧ inl.caller.Reached inl.block ∧
    inl.callee.Reached c ∧ inl.Agrees I inl.block inl.before env₀ env' ∧
    ∃ done, inl.callee.body c = done ++ rest ∧ inl.Mirrors I c done env env'

/-- The environment behind the call when the callee has returned. -/
def resume (inl : SoundInlining) (I : Interpretation) (env : Env I.Value) (value : Option I.Value) :
    Env I.Value :=
  env.assign inl.site.dest (value.getD (I.constant (.poison inl.site.returnType)))

namespace Between

variable {inl : SoundInlining} {m n : Module} {caller callee : FunctionId}
  (h : inl.Between m n caller callee) {I : Interpretation} {env env' env₀ : Env I.Value}
  {b b' : BlockId} {rest rest' : List Instruction}

include h

/-! ## Points of the caller -/

/-- Next is an instruction and what becomes of it, the call, or the end of a block. -/
theorem next_caller (hat : inl.InCaller I b rest env b' rest' env') :
    (∃ i tail tail', rest = i :: tail ∧ rest' = inl.rewrite i :: tail' ∧
      (i.op.isPhi = false → I.Matches env env' i (inl.rewrite i)) ∧
      ∀ v, inl.InCaller I b tail (env.assign i.op.dest? v) b' tail'
        (env'.assign (inl.rewrite i).op.dest? v)) ∨
    (b = inl.block ∧ rest = inl.call :: inl.after ∧ b' = inl.block ∧ rest' = [] ∧
      inl.caller.Reached inl.block ∧ inl.Agrees I inl.block inl.before env env') ∨
    (rest = [] ∧ b' = inl.moved b ∧ rest' = [] ∧ inl.caller.Reached b ∧
      inl.Agrees I b (inl.caller.body b) env env') := by
  obtain ⟨done, kept, hplaced, rfl, hreached, hagrees⟩ := hat
  have hbody := hplaced.body_eq
  rcases hplaced.next with ⟨i, tail, tail', rfl, rfl, hnext, hne⟩ |
    ⟨rfl, rfl, rfl, rfl, rfl⟩ | ⟨rfl, rfl, rfl⟩
  · refine .inl ⟨i, tail, _, rfl, rfl, h.matches_rewrite hagrees hbody, fun v => ?_⟩
    rw [dest?_rewrite]
    exact ⟨_, tail', hnext, rfl, hreached, hagrees.assign hbody hreached hne v⟩
  · exact .inr (.inl ⟨rfl, rfl, rfl, rfl, hreached, hagrees⟩)
  · rw [List.append_nil] at hbody
    exact .inr (.inr ⟨rfl, rfl, rfl, hreached, hbody ▸ hagrees⟩)

theorem end_caller (hat : inl.InCaller I b [] env b' rest' env') :
    b' = inl.moved b ∧ rest' = [] ∧ inl.caller.Reached b ∧
      inl.Agrees I b (inl.caller.body b) env env' := by
  rcases h.next_caller hat with ⟨_, _, _, heq, _⟩ | ⟨_, heq, _⟩ | ⟨_, hend⟩
  · cases heq
  · cases heq
  · exact hend

/-- When control has come to a block of the caller, its phis have taken the same values. -/
theorem inCaller_code {a : BlockId} {next : Block} {values : List (ValueId × I.Value)}
    (hreached : inl.caller.Reached a) (hagrees : inl.Agrees I a (inl.caller.body a) env env')
    (hblock : inl.caller.block? a = some block) (htarget : I.target? env block.terminator = some b)
    (hnext : inl.caller.block? b = some next)
    (hvalues : I.phiValues env a next.phis = some values) :
    inl.InCaller I b next.code (env.setAll values) b (inl.callerBlock b next).code
      (env'.setAll values) := by
  obtain ⟨_, _, hedge⟩ := I.exists_target inl.wellFormed hblock htarget
  refine ⟨_, _, (placed_code hnext).2, ?_, hreached.step hedge, ?_⟩
  · exact (Block.parts_map (h.instructions_callerBlock b next) isPhi_rewrite).2
  · exact hagrees.enter hedge hnext hreached (I.phiValues_keys hvalues)

section

variable (hreached : inl.caller.Reached b) (hagrees : inl.Agrees I b (inl.caller.body b) env env')
  {target : BlockId}

include hreached hagrees

theorem passes_caller {env₁ : Env I.Value} (hpasses : I.Passes inl.caller b env target rest env₁) :
    ∃ rest' env₁', I.Passes inl.result (inl.moved b) env' target rest' env₁' ∧
      inl.InCaller I target rest env₁ target rest' env₁' := by
  cases hpasses with
  | intro hblock htarget hnext hvalues =>
      obtain ⟨block', hblock', hterm⟩ := exists_moved hblock
      refine ⟨_, _, .intro hblock' ?_ (inl.result_of_block? hnext) ?_,
        h.inCaller_code hreached hagrees hblock htarget hnext hvalues⟩
      · rwa [hterm, I.target?_map (hagrees.eval_terminator hblock)]
      · rwa [h.phiValues_caller hagrees hblock hnext]

theorem of_passes_caller {env₁' : Env I.Value}
    (hpasses : I.Passes inl.result (inl.moved b) env' target rest' env₁') :
    ∃ rest env₁, I.Passes inl.caller b env target rest env₁ ∧
      inl.InCaller I target rest env₁ target rest' env₁' := by
  obtain ⟨block, hblock⟩ := inl.wellFormed.exists_block hreached
  obtain ⟨block', hblock', hterm⟩ := exists_moved hblock
  cases hpasses with
  | intro hmoved htarget hnext' hvalues =>
      obtain rfl := Option.some.inj (hblock'.symm.trans hmoved)
      rw [hterm, I.target?_map (hagrees.eval_terminator hblock)] at htarget
      obtain ⟨next, hnext, _⟩ := I.exists_target inl.wellFormed hblock htarget
      obtain rfl := Option.some.inj ((inl.result_of_block? hnext).symm.trans hnext')
      rw [h.phiValues_caller hagrees hblock hnext] at hvalues
      exact ⟨_, _, .intro hblock htarget hnext hvalues,
        h.inCaller_code hreached hagrees hblock htarget hnext hvalues⟩

omit h in
theorem returns_caller_iff {value : Option I.Value} :
    I.Returns inl.result (inl.moved b) env' value ↔ I.Returns inl.caller b env value := by
  obtain ⟨block, hblock⟩ := inl.wellFormed.exists_block hreached
  obtain ⟨block', hblock', hterm⟩ := exists_moved hblock
  have hreturn : I.return? env' block'.terminator = I.return? env block.terminator := by
    rw [hterm, I.return?_map (hagrees.eval_terminator hblock)]
  simp [Interpretation.Returns, hblock, hblock', hreturn]

end

/-! ## Points of the callee -/

theorem next_copy {i : Instruction} {tail : List Instruction}
    (hat : inl.InCopy I env₀ b (i :: tail) env b' rest' env') :
    ∃ tail', rest' = inl.copyOf i :: tail' ∧
      (i.op.isPhi = false → I.Matches env env' i (inl.copyOf i)) ∧
      ∀ v, inl.InCopy I env₀ b tail (env.assign i.op.dest? v) b' tail'
        (env'.assign (inl.copyOf i).op.dest? v) := by
  obtain ⟨rfl, rfl, houter, hreached, hagrees, done, hbody, hmirrors⟩ := hat
  have hargs : ∀ d, inl.site.dest = some d → .var d ∉ inl.site.args :=
    fun _ => inl.dest_not_arg houter
  refine ⟨_, rfl, h.matches_copyOf hmirrors hargs hbody, fun v => ?_⟩
  rw [dest?_copyOf]
  refine ⟨rfl, rfl, houter, hreached, hagrees.frame houter (assign_copy_frame hbody v), ?_⟩
  exact ⟨_, by rw [hbody, List.append_cons], hmirrors.assign hbody hreached v⟩

omit h in
theorem exists_cons_of_copy {i' : Instruction} {tail' : List Instruction}
    (hat : inl.InCopy I env₀ b rest env b' (i' :: tail') env') : ∃ i tail, rest = i :: tail := by
  obtain ⟨i, tail, hrest, _⟩ := List.map_eq_cons_iff.mp hat.2.1.symm
  exact ⟨i, tail, hrest⟩

omit h in
theorem nil_of_copy (hat : inl.InCopy I env₀ b rest env b' [] env') : rest = [] :=
  List.map_eq_nil_iff.mp hat.2.1.symm

omit h in
theorem end_copy (hat : inl.InCopy I env₀ b [] env b' rest' env') :
    b' = inl.clone b ∧ rest' = [] ∧ inl.caller.Reached inl.block ∧ inl.callee.Reached b ∧
      inl.Agrees I inl.block inl.before env₀ env' ∧
      inl.Mirrors I b (inl.callee.body b) env env' := by
  obtain ⟨hb, hrest, houter, hreached, hagrees, done, hbody, hmirrors⟩ := hat
  rw [List.append_nil] at hbody
  exact ⟨hb, hrest, houter, hreached, hagrees, hbody ▸ hmirrors⟩

section

variable (houter : inl.caller.Reached inl.block) (hreached : inl.callee.Reached b)
  (hagrees : inl.Agrees I inl.block inl.before env₀ env')
  (hmirrors : inl.Mirrors I b (inl.callee.body b) env env')

include houter hreached hagrees hmirrors

theorem inCopy_code {c : BlockId} {next : Block} {values : List (ValueId × I.Value)}
    (hblock : inl.callee.block? b = some block) (htarget : I.target? env block.terminator = some c)
    (hnext : inl.callee.block? c = some next)
    (hvalues : I.phiValues env b next.phis = some values) :
    inl.InCopy I env₀ c next.code (env.setAll values) (inl.clone c) (inl.calleeBlock c next).code
      (env'.setAll (values.map fun entry => (inl.names.dest entry.1, entry.2))) := by
  obtain ⟨_, _, hedge⟩ := I.exists_target inl.callee_wellFormed hblock htarget
  have hkeys := I.phiValues_keys hvalues
  refine ⟨rfl, ?_, houter, hreached.step hedge, ?_, next.phis, ?_, ?_⟩
  · exact (Block.parts_map (h.instructions_calleeBlock c next) isPhi_copyOf).2
  · exact hagrees.frame houter (setAll_copy_frame hnext hkeys)
  · exact (Function.body_eq hnext).trans next.instructions_eq
  · exact hmirrors.enter hedge hnext hreached hkeys

theorem passes_copy {target : BlockId} {env₁ : Env I.Value}
    (hpasses : I.Passes inl.callee b env target rest env₁) :
    ∃ rest' env₁', I.Passes inl.result (inl.clone b) env' (inl.clone target) rest' env₁' ∧
      inl.InCopy I env₀ target rest env₁ (inl.clone target) rest' env₁' := by
  have hargs : ∀ d, inl.site.dest = some d → .var d ∉ inl.site.args :=
    fun _ => inl.dest_not_arg houter
  cases hpasses with
  | intro hblock htarget hnext hvalues =>
      refine ⟨_, _, .intro (inl.result_clone hblock) ?_ (inl.result_clone hnext) ?_,
        h.inCopy_code houter hreached hagrees hmirrors hblock htarget hnext hvalues⟩
      · rw [target?_copy hblock hmirrors hargs, I.not_isReturn htarget, htarget]
        rfl
      · rw [h.phiValues_callee hmirrors hargs hblock hnext, hvalues]
        rfl

omit h hreached in
theorem inCaller_returned {value : Option I.Value} (hblock : inl.callee.block? b = some block)
    (hvalue : I.return? env block.terminator = some value) :
    ∃ values, I.phiValues env' (inl.clone b) inl.contBlock.phis = some values ∧
      inl.InCaller I inl.block inl.after (inl.resume I env₀ value) inl.cont inl.contBlock.code
        (env'.setAll values) := by
  obtain ⟨values, hvalues, hafter⟩ := exists_returned hblock hvalue hmirrors hagrees
  exact ⟨values, hvalues, _, _, .after rfl, parts_contBlock.2, houter, hafter⟩

omit h hreached in
theorem returns_copy {value : Option I.Value} (hreturns : I.Returns inl.callee b env value) :
    ∃ rest' env₁', I.Passes inl.result (inl.clone b) env' inl.cont rest' env₁' ∧
      inl.InCaller I inl.block inl.after (inl.resume I env₀ value) inl.cont rest' env₁' := by
  obtain ⟨block, hblock, hvalue⟩ := hreturns
  obtain ⟨values, hvalues, hat⟩ := inCaller_returned houter hagrees hmirrors hblock hvalue
  refine ⟨_, _, .intro (inl.result_clone hblock) ?_ inl.result_cont hvalues, hat⟩
  rw [target?_copy hblock hmirrors fun _ => inl.dest_not_arg houter, I.isReturn_of_return? hvalue]
  rfl

/-- Control leaves a copy for another one, or behind the call when the callee returns. -/
theorem of_passes_copy {target' : BlockId} {env₁' : Env I.Value}
    (hpasses : I.Passes inl.result (inl.clone b) env' target' rest' env₁') :
    (∃ target rest env₁, I.Passes inl.callee b env target rest env₁ ∧
      inl.InCopy I env₀ target rest env₁ target' rest' env₁') ∨
    ∃ value, I.Returns inl.callee b env value ∧
      inl.InCaller I inl.block inl.after (inl.resume I env₀ value) target' rest' env₁' := by
  have hargs : ∀ d, inl.site.dest = some d → .var d ∉ inl.site.args :=
    fun _ => inl.dest_not_arg houter
  obtain ⟨block, hblock⟩ := inl.callee_wellFormed.exists_block hreached
  cases hpasses with
  | intro hcopy htarget hnext' hvalues =>
      obtain rfl := Option.some.inj ((inl.result_clone hblock).symm.trans hcopy)
      rw [target?_copy hblock hmirrors hargs] at htarget
      split at htarget
      next hreturn =>
        obtain rfl := Option.some.inj htarget
        obtain rfl := Option.some.inj (inl.result_cont.symm.trans hnext')
        obtain ⟨value, hvalue⟩ := exists_return hblock hreturn hmirrors
        obtain ⟨_, hphis, hat⟩ := inCaller_returned houter hagrees hmirrors hblock hvalue
        obtain rfl := Option.some.inj (hphis.symm.trans hvalues)
        exact .inr ⟨value, ⟨block, hblock, hvalue⟩, hat⟩
      next =>
        obtain ⟨target, hold, rfl⟩ := Option.map_eq_some_iff.mp htarget
        obtain ⟨next, hnext, _⟩ := I.exists_target inl.callee_wellFormed hblock hold
        obtain rfl := Option.some.inj ((inl.result_clone hnext).symm.trans hnext')
        rw [h.phiValues_callee hmirrors hargs hblock hnext] at hvalues
        obtain ⟨values, hphis, rfl⟩ := Option.map_eq_some_iff.mp hvalues
        exact .inl ⟨target, _, _, .intro hblock hold hnext hphis,
          h.inCopy_code houter hreached hagrees hmirrors hblock hold hnext hphis⟩

end

omit h in
theorem not_returns_copy {c : BlockId} (hblock : inl.callee.block? c = some block)
    {value : Option I.Value} : ¬I.Returns inl.result (inl.clone c) env' value := by
  rintro ⟨copy, hcopy, hvalue⟩
  obtain rfl := Option.some.inj ((inl.result_clone hblock).symm.trans hcopy)
  rw [return?_copy] at hvalue
  cases hvalue

/-! ## The call -/

/-- The copy of the entry of the callee has no phi. -/
theorem parts_entry (hfirst : inl.callee.block? inl.callee.entry = some first) :
    (inl.calleeBlock inl.callee.entry first).phis = [] ∧
      (inl.calleeBlock inl.callee.entry first).code = first.instructions.map inl.copyOf := by
  have hphis : ∀ i ∈ first.instructions, i.op.isPhi = false := by
    rw [← Function.body_eq hfirst]
    exact inl.entry_not_phi
  have hnone : first.instructions.takeWhile (·.op.isPhi) = [] ∧
      first.instructions.dropWhile (·.op.isPhi) = first.instructions := by
    cases hinstructions : first.instructions with
    | nil => simp
    | cons i rest => simp [hphis i (by simp [hinstructions])]
  simpa only [hnone, List.map_nil] using
    Block.parts_map (h.instructions_calleeBlock inl.callee.entry first) isPhi_copyOf

/-- In place of the call, control enters the copy of the callee, and nothing is set. -/
theorem passes_block_iff (hfirst : inl.callee.block? inl.callee.entry = some first)
    {target : BlockId} {env₁' : Env I.Value} :
    I.Passes inl.result inl.block env' target rest' env₁' ↔
      target = inl.clone inl.callee.entry ∧ rest' = first.instructions.map inl.copyOf ∧
        env₁' = env' := by
  obtain ⟨hphis, hcode⟩ := h.parts_entry hfirst
  have hterm : (inl.callerBlock inl.block inl.head).terminator =
      .jump (inl.clone inl.callee.entry) := by
    simp [callerBlock, exit, Terminator.mapOperands]
  constructor
  · intro hpasses
    cases hpasses with
    | intro hblock htarget hnext hvalues =>
        obtain rfl := Option.some.inj ((inl.result_of_block? inl.block_eq).symm.trans hblock)
        rw [hterm] at htarget
        obtain rfl := Option.some.inj htarget
        obtain rfl := Option.some.inj ((inl.result_clone hfirst).symm.trans hnext)
        rw [hphis] at hvalues
        obtain rfl := Option.some.inj hvalues
        exact ⟨rfl, hcode, rfl⟩
  · rintro ⟨rfl, rfl, rfl⟩
    have hvalues : I.phiValues env₁' inl.block (inl.calleeBlock inl.callee.entry first).phis =
        some [] := by
      rw [hphis]
      rfl
    rw [← hcode]
    exact .intro (inl.result_of_block? inl.block_eq) (hterm ▸ rfl) (inl.result_clone hfirst) hvalues

omit h in
theorem not_returns_block {value : Option I.Value} :
    ¬I.Returns inl.result inl.block env' value := by
  rintro ⟨block, hblock, hvalue⟩
  obtain rfl := Option.some.inj ((inl.result_of_block? inl.block_eq).symm.trans hblock)
  simp [callerBlock, exit, Terminator.mapOperands, Interpretation.return?] at hvalue

omit h in
/-- The arguments of the call have values, one for each parameter. -/
theorem exists_arguments (hagrees : inl.Agrees I inl.block inl.before env env') :
    ∃ values, I.evalAll env inl.site.args = some values ∧
      inl.callee.parameters.length ≤ values.length := by
  obtain ⟨values, hvalues, hlength⟩ := I.exists_evalAll fun a ha =>
    (hagrees.exists_eval (inl.reads_arg ha)).imp fun _ hv => hv.1
  exact ⟨values, hvalues, by rw [hlength, inl.arity]⟩

omit h in
theorem inCopy_start (hfirst : inl.callee.block? inl.callee.entry = some first)
    (hreached : inl.caller.Reached inl.block) (hagrees : inl.Agrees I inl.block inl.before env env')
    {values : List I.Value} (hvalues : I.evalAll env inl.site.args = some values) :
    inl.InCopy I env inl.callee.entry first.instructions
      (Env.ofArguments inl.callee.parameters values) (inl.clone inl.callee.entry)
      (first.instructions.map inl.copyOf) env' :=
  ⟨rfl, rfl, hreached, inl.callee.reached_entry, hagrees, [], Function.body_eq hfirst,
    mirrors_start (fun _ => inl.dest_not_arg hreached) hagrees hvalues⟩

/-- The call is one of a function with a body. -/
theorem body?_call : m.body? inl.call.op ≠ none := by
  intro hnone
  have hcallee : inl.call.op.directCallee? = some callee := by
    rw [inl.call_eq, h.target_eq]
    rfl
  have hdecl := Module.body?_eq_none_iff.mp hnone callee inl.callee hcallee h.callee_eq
  have hentry := inl.callee_wellFormed.entry_lt
  rw [Function.isDeclaration, List.isEmpty_iff] at hdecl
  simp [hdecl] at hentry

end Between

end SoundInlining

end Monolith

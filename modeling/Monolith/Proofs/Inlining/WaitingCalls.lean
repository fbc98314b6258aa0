import Monolith.Proofs.Inlining.Forced
import Monolith.Proofs.Lists

/-! # No call waits forever

The first call is always inlined next, and what its body brings is put behind all other
calls. So every direct call has its turn, and with it the calls that it makes direct.
-/

namespace Monolith

variable {dest : Option ValueId} {ty : Ty} {args : List Operand}

/-- The call stands behind `within` others in its block, and behind blocks with `earlier`
calls. -/
def Function.Waits (f : Function) (op : Operation) (within earlier : Nat) : Prop :=
  ∃ front before after back, f.blockCalls = front ++ (before ++ op :: after) :: back ∧
    before.length = within ∧ front.flatten.length = earlier

theorem Function.exists_waits {f : Function} {op : Operation} (h : op ∈ f.calls) :
    ∃ within earlier, f.Waits op within earlier := by
  obtain ⟨calls, hcalls, hop⟩ := List.mem_flatten.mp h
  obtain ⟨front, back, hblocks⟩ := List.append_of_mem hcalls
  obtain ⟨before, after, rfl⟩ := List.append_of_mem hop
  exact ⟨_, _, front, before, after, back, hblocks, rfl, rfl⟩

namespace Splice

variable {bodies : FunctionId → Option Function} {sp : Splice bodies}

theorem result_waits {op : Operation} {front back : List (List Operation)}
    {before after : List Operation}
    (h : sp.front ++ sp.before :: sp.back ++ [sp.after] ++
        sp.callee.blockCalls.map (List.map sp.names.call) =
      front ++ (before ++ op :: after) :: back) :
    sp.result.Waits (op.mapOperands sp.subst) before.length front.flatten.length := by
  let become := Operation.mapOperands sp.subst
  refine ⟨front.map (List.map become), before.map become, after.map become,
    back.map (List.map become), ?_, List.length_map _, ?_⟩
  · rw [sp.result_calls, h, List.map_append, List.map_cons, List.map_append, List.map_cons]
    rfl
  · rw [← List.map_flatten, List.length_map]

/-- While another call is inlined, a direct call moves up in its block or its block moves
up. -/
theorem waits_result {op : Operation} {within earlier : Nat}
    (hfirst : ∀ op ∈ sp.front.flatten ++ sp.before, ¬DirectCall bodies op)
    (hdirect : DirectCall bodies op) (hne : op ≠ sp.op) (h : sp.caller.Waits op within earlier) :
    ∃ within' earlier', sp.result.Waits (op.mapOperands sp.subst) within' earlier' ∧
      Prod.Lex (· < ·) (· < ·) (within', earlier') (within, earlier) := by
  obtain ⟨front, before, after, back, hcalls, rfl, rfl⟩ := h
  have hfront : op ∉ sp.front.flatten := fun hmem =>
    hfirst op (List.mem_append_left _ hmem) hdirect
  have hbefore : op ∉ sp.before := fun hmem => hfirst op (List.mem_append_right _ hmem) hdirect
  rcases split_append (sp.caller_calls.symm.trans hcalls) with
    ⟨between, hblock, _⟩ | ⟨_ | ⟨_, between⟩, rfl, hbehind⟩
  · -- a block in front of that of the inlined call has no direct call
    refine absurd (List.mem_flatten.mpr ⟨before ++ op :: after, ?_, ?_⟩) hfront
    · rw [hblock]
      exact List.mem_append_right _ List.mem_cons_self
    · exact List.mem_append_right _ List.mem_cons_self
  · obtain ⟨hblock, rfl⟩ := List.cons.inj hbehind
    rcases split_append hblock with ⟨between, hop, _⟩ | ⟨_ | ⟨_, between⟩, rfl, hcall⟩
    · refine absurd ?_ hbefore
      rw [hop]
      exact List.mem_append_right _ List.mem_cons_self
    · exact absurd (List.cons.inj hcall).1.symm hne
    · have hafter : sp.after = between ++ op :: after := (List.cons.inj hcall).2
      -- the call is moved to the block where control goes on
      have hresult : sp.front ++ sp.before :: sp.back ++ [sp.after] ++
          sp.callee.blockCalls.map (List.map sp.names.call) =
          (sp.front ++ sp.before :: sp.back) ++ (between ++ op :: after) ::
            sp.callee.blockCalls.map (List.map sp.names.call) := by
        rw [hafter, List.append_assoc]
        rfl
      refine ⟨_, _, result_waits hresult, .left _ _ ?_⟩
      simp only [List.length_append, List.length_cons]
      omega
  · obtain ⟨rfl, hrest⟩ := List.cons.inj hbehind
    have hback : sp.back = between ++ (before ++ op :: after) :: back := hrest
    -- the block moves up, for nothing of the other block is left behind the inlined call
    have hresult : sp.front ++ sp.before :: sp.back ++ [sp.after] ++
        sp.callee.blockCalls.map (List.map sp.names.call) =
        (sp.front ++ sp.before :: between) ++ (before ++ op :: after) ::
          (back ++ [sp.after] ++ sp.callee.blockCalls.map (List.map sp.names.call)) := by
      rw [hback]
      simp only [List.append_assoc, List.cons_append]
    refine ⟨_, _, result_waits hresult, .right _ ?_⟩
    simp only [List.flatten_append, List.flatten_cons, List.length_append, List.length_cons]
    omega

theorem kept_of_var {x : ValueId} (h : .call dest ty (.var x) args ∈ sp.caller.calls) :
    .call dest ty (.var x) args ∈ sp.kept := by
  refine (sp.mem_caller_calls.mp h).resolve_left fun heq => ?_
  cases (Operation.call.inj heq).2.2.1

/-- What is known of a value that is returned, after another call has been inlined. -/
theorem knownIn_returned {k : Nat} {callee value : Operand} {target id : FunctionId} {g : Function}
    (hcall : .call dest ty callee args ∈ sp.caller.calls) (hbody : bodies target = some g)
    (hvalue : g.results = [value])
    (hknown : KnownIn bodies k (⟨g, args⟩ :: sp.caller.alone) value id) :
    KnownIn bodies k (⟨g, args.map sp.subst⟩ :: sp.result.alone) value id := by
  have hg := sp.tidy_bodies _ _ hbody
  have hrecords := sp.tidy.operand_records _ hcall
  have hover := Over.outer.push (fun arg harg => hrecords arg (List.mem_cons_of_mem _ harg)) hg
  exact knownIn_over hknown hover (hg.result_records _ (hvalue ▸ List.mem_singleton_self _))

end Splice

namespace ResolvesBy

variable {bodies : FunctionId → Option Function} {sp : Splice bodies} {n : Nat}
  {first op : Operation} {id : FunctionId}

theorem mem {f : Function} (h : ResolvesBy bodies f first n op id) : op ∈ f.calls := by
  cases h with
  | direct _ hmem => exact hmem
  | after _ _ _ _ hmem _ => exact hmem

theorem eq_of_const {f : Function} {target : FunctionId}
    (h : ResolvesBy bodies f first n (.call dest ty (.const (.function target)) args) id) :
    id = target := by
  cases h with
  | direct hfirst _ =>
      obtain ⟨_, _, hcallee, _⟩ := Operation.call.inj hfirst
      exact (Constant.function.inj (Operand.const.inj hcallee)).symm

/-- As long as the first call of the row is not inlined, the row stays. -/
theorem stays (h : ResolvesBy bodies sp.caller first n op id) (hne : first ≠ sp.op) :
    op ∈ sp.kept ∧
      ResolvesBy bodies sp.result (first.mapOperands sp.subst) n (op.mapOperands sp.subst) id := by
  induction h with
  | direct hfirst hmem =>
      have hkept := (sp.mem_caller_calls.mp hmem).resolve_left hne
      have hfirst' := congrArg (Operation.mapOperands sp.subst) hfirst
      rw [Operation.mapOperands.eq_8, sp.subst_const] at hfirst'
      exact ⟨hkept, .direct hfirst' (sp.mem_result_of_kept hkept)⟩
  | after hcallee hbody hvalue hknown hmem hbound ih =>
      have hkept := Splice.kept_of_var hmem
      have hmem' := sp.mem_result_of_kept hkept
      obtain ⟨hcalleeKept, hcallee'⟩ := ih
      have hreturned := Splice.knownIn_returned hcallee.mem hbody hvalue hknown
      refine ⟨hkept, ?_⟩
      rw [Operation.mapOperands, sp.subst_of_ne (sp.dest_ne_of_kept hcalleeKept rfl)] at hmem' ⊢
      exact .after hcallee' hbody hvalue hreturned hmem' hbound

/-- When the first call of the row is inlined, less is left to look into. -/
theorem inlined {dest : Option ValueId} {ty : Ty} {callee : Operand} {args : List Operand}
    (h : ResolvesBy bodies sp.caller sp.op n (.call dest ty callee args) id) :
    .call dest ty callee args = sp.op ∨ (.call dest ty callee args ∈ sp.kept ∧
      ∃ j < n, KnownIn bodies j sp.result.alone (sp.subst callee) id) := by
  generalize hop : Operation.call dest ty callee args = op at h
  induction h generalizing dest ty callee args with
  | direct => exact .inl rfl
  | @after n j k x _ _ _ callee value args _ target id g hcallee hbody hvalue hknown hmem hbound
      ih =>
      obtain ⟨rfl, rfl, rfl, rfl⟩ := Operation.call.inj hop
      refine .inr ⟨Splice.kept_of_var hmem, ?_⟩
      rcases ih rfl with heq | ⟨hkept, j', hj, hknown'⟩
      · -- the frame that is looked into has become part of the result
        obtain ⟨hdest, rfl, rfl, rfl⟩ := Operation.call.inj heq
        obtain rfl := hcallee.eq_of_const
        obtain rfl := Option.some.inj (sp.body.symm.trans hbody)
        have hresult := sp.callee_tidy.result_records _ (hvalue ▸ List.mem_singleton_self _)
        have hinner := Splice.knownIn_over hknown .inner hresult
        rw [sp.subst_value hvalue] at hinner
        refine ⟨k, Nat.lt_of_le_of_lt (Nat.le_add_left k j) hbound, ?_⟩
        rwa [sp.subst_dest hdest.symm hvalue]
      · have hreturned := Splice.knownIn_returned hcallee.mem hbody hvalue hknown
        refine ⟨j + k, hbound, ?_⟩
        rw [sp.subst_of_ne (sp.dest_ne_of_kept hkept rfl)]
        exact .result (sp.mem_result_of_kept hkept) hknown' hbody hvalue hreturned
          (Nat.add_lt_add_right hj k)

end ResolvesBy

/-- A chain of calls comes to one that cannot be inlined. The call that it begins with
stands at the end of a row of calls, and the first call of the row waits. -/
inductive Awaits (bodies : FunctionId → Option Function) (f : Function)
    (length bound within earlier : Nat) : Prop where
  | intro {first : Operation} {dest : Option ValueId} {ty : Ty} {callee : Operand}
      {args : List Operand} {id : FunctionId} {g : Function}
      (hrow : ResolvesBy bodies f first bound (.call dest ty callee args) id)
      (hbody : bodies id = some g) (hmisfit : MisfitAfter bodies length (⟨g, args⟩ :: f.alone))
      (hwaits : f.Waits first within earlier)

section

variable {bodies : FunctionId → Option Function} {f : Function} {length bound : Nat}

theorem KnownIn.exists_awaits {callee : Operand} {id : FunctionId} {g : Function}
    (h : KnownIn bodies bound f.alone callee id) (hcall : .call dest ty callee args ∈ f.calls)
    (hbody : bodies id = some g) (hmisfit : MisfitAfter bodies length (⟨g, args⟩ :: f.alone)) :
    ∃ within earlier, Awaits bodies f length bound within earlier := by
  obtain ⟨first, hrow⟩ := h.exists_resolvesBy hcall
  obtain ⟨within, earlier, hwaits⟩ := Function.exists_waits (hrow.directCall hbody).1
  exact ⟨within, earlier, .intro hrow hbody hmisfit hwaits⟩

theorem MisfitAfter.exists_awaits (h : MisfitAfter bodies (length + 1) f.alone) :
    ∃ bound within earlier, Awaits bodies f length bound within earlier := by
  obtain ⟨next, ⟨hcall, hcallee, hbody⟩, hmisfit⟩ := h
  obtain ⟨bound, hknown⟩ := hcallee.exists_bound
  exact ⟨bound, hknown.exists_awaits hcall hbody hmisfit⟩

end

/-- Each call that is inlined brings the misfit nearer: the chain to it gets shorter, or less
is left to look into for its first call, or the call that is waited for moves up. -/
theorem Awaits.exists_result {bodies : FunctionId → Option Function} {sp : Splice bodies}
    {length bound within earlier : Nat}
    (h : Awaits bodies sp.caller length bound within earlier)
    (hfirst : ∀ op ∈ sp.front.flatten ++ sp.before, ¬DirectCall bodies op) :
    ∃ length' bound' within' earlier', Awaits bodies sp.result length' bound' within' earlier' ∧
      Prod.Lex (· < ·) (Prod.Lex (· < ·) (Prod.Lex (· < ·) (· < ·)))
        (length', bound', within', earlier') (length, bound, within, earlier) := by
  obtain @⟨first, dest, ty, callee, args, id, g, hrow, hbody, hmisfit, hwaits⟩ := h
  have hrecords := sp.tidy.operand_records _ hrow.mem
  have habove : sp.Above (⟨g, args⟩ :: sp.caller.alone)
      (⟨g, args.map sp.subst⟩ :: sp.result.alone) :=
    .intro .outer (fun arg harg => hrecords arg (List.mem_cons_of_mem _ harg))
      (sp.tidy_bodies _ _ hbody)
  have hmisfit' := habove.misfitAfter_iff.mp hmisfit
  by_cases heq : first = sp.op
  · subst heq
    rcases hrow.inlined with hop | ⟨hkept, bound', hless, hknown⟩
    · obtain ⟨_, _, rfl, rfl⟩ := Operation.call.inj hop
      obtain rfl := hrow.eq_of_const
      obtain rfl := Option.some.inj (sp.body.symm.trans hbody)
      cases length with
      | zero => exact absurd sp.fits hmisfit
      | succ length =>
          obtain ⟨next, henters, hnext⟩ := hmisfit
          obtain ⟨next', henters', hsame⟩ := Splice.enters_result_of_within henters
          have hresult : MisfitAfter bodies (length + 1) sp.result.alone :=
            ⟨next', henters', hsame.misfitAfter_iff.mp hnext⟩
          obtain ⟨bound', within', earlier', hawaits⟩ := hresult.exists_awaits
          exact ⟨_, _, _, _, hawaits, .left _ _ (Nat.lt_succ_self length)⟩
    · obtain ⟨within', earlier', hawaits⟩ :=
        hknown.exists_awaits (sp.mem_result_of_kept hkept) hbody hmisfit'
      exact ⟨_, _, _, _, hawaits, .right _ (.left _ _ hless)⟩
  · obtain ⟨within', earlier', hwaits', hless⟩ :=
      sp.waits_result hfirst (hrow.directCall hbody).2 heq hwaits
    exact ⟨_, _, _, _, .intro (hrow.stays heq).2 hbody hmisfit' hwaits', .right _ (.right _ hless)⟩

/-- A run that has a misfit in front of it comes to an end. -/
theorem Plan.Stage.halts_of_awaits {plan : Plan} {bodies : FunctionId → Option Function}
    {m : Module} {f : Function} {length bound within earlier : Nat}
    (stage : plan.Stage bodies m f) (h : Awaits bodies f length bound within earlier) :
    plan.Halts m := by
  cases stage.turn with
  | done hnext => exact .of_done hnext
  | rejected hnext hcall => exact .of_rejected hnext hcall
  | inlined sp hcaller hnext hcall hstage hfirst =>
      subst hcaller
      obtain ⟨length', bound', within', earlier', hawaits, hless⟩ := h.exists_result hfirst
      exact .of_inlined hnext hcall (hstage.halts_of_awaits hawaits)
  termination_by (length, bound, within, earlier)
  decreasing_by exact hless

end Monolith

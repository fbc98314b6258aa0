import Monolith.Proofs.Inlining.Reads

/-! # Inlining keeps well-formed bodies

What has a value at a place of the caller or the callee has one at the place of the
result that it has become: definitions of the caller are passed as before, those of
the callee between the call and the block behind it, and its allocas in the entry.
-/

namespace Monolith.SoundInlining

open Inlining

variable (inl : SoundInlining) {y x d : ValueId} {rest : List BlockId} {c : BlockId} {o : Operand}

/-! ## Values on the way -/

theorem mem_defsOf_block (hne : inl.site.dest ≠ some x) :
    x ∈ defsOf (inl.caller.body inl.block) ↔ x ∈ defsOf inl.before ∨ x ∈ defsOf inl.after := by
  rw [body_block, defsOf_append, defsOf_cons, inl.call_eq]
  simp [Operation.dest?, hne]

theorem defsOf_body_block (hx : x ∈ defsOf inl.before) :
    x ∈ defsOf (inl.result.body inl.block) := by
  apply inl.defsOf_body_of_kept inl.block_eq
  rwa [kept, if_pos rfl]

/-- What the caller defined on its walk is defined on the walk through the result. -/
theorem Follows.passed {inl : SoundInlining} {b e : BlockId} {old : List BlockId}
    (h : inl.Follows b rest old) (hne : inl.site.dest ≠ some x) (he : e ∈ old)
    (hx : x ∈ defsOf (inl.caller.body e)) : ∃ a ∈ rest, x ∈ defsOf (inl.result.body a) := by
  rcases eq_or_ne e inl.block with rfl | hblock
  · rcases (inl.mem_defsOf_block hne).mp hx with hbefore | hafter
    · exact ⟨inl.block, h.subset _ he, inl.defsOf_body_block hbefore⟩
    · refine ⟨inl.cont, h.resumed he, ?_⟩
      rw [defsOf_body_cont]
      exact List.mem_append_right _ hafter
  · obtain ⟨i, hi, _⟩ := mem_defsOf.mp hx
    obtain ⟨block, he', _⟩ := Function.block?_of_mem_body hi
    rw [Function.body_eq he'] at hx
    refine ⟨e, h.subset _ he, inl.defsOf_body_of_kept he' ?_⟩
    rwa [kept, if_neg hblock]

theorem owner_of_at {a b : BlockId} {passed done : List Instruction}
    (hat : inl.At a passed b done) :
    inl.owner b = a := by
  cases hat with
  | early hb => exact inl.owner_of_lt (List.getElem?_eq_some_iff.mp hb).1
  | late => exact inl.owner_cont

/-- What has a value in the caller has one at the same place of the result. -/
theorem available_caller {a b : BlockId} {passed done : List Instruction}
    (hat : inl.At a passed b done) (hne : inl.site.dest ≠ some x)
    (hvisible : inl.caller.Visible a passed x) (hwalk : inl.result.Walk (b :: rest)) :
    inl.result.Available rest done x := by
  obtain ⟨old, hfollows⟩ := inl.exists_follows hwalk
  have hold := hfollows.walk
  rw [inl.owner_of_at hat] at hold
  rcases hvisible old hold with hparam | hdone | ⟨e, he, hx⟩
  · exact .inl hparam
  · cases hat with
    | early _ _ hdefs => exact .inr (.inl (hdefs x hdone))
    | late _ hdefs =>
        rw [defsOf_append, defsOf_cons, inl.call_eq] at hdone
        simp only [Operation.dest?, List.mem_append, Option.mem_toList, hne, false_or] at hdone
        rcases hdone with hbefore | hpassed
        · have hblock := hfollows.entered (Nat.le_refl _)
          exact .inr (.inr ⟨inl.block, hblock, inl.defsOf_body_block hbefore⟩)
        · exact .inr (.inl (hdefs x hpassed))
  · exact .inr (.inr (hfollows.passed hne he hx))

theorem dest_mem_body (hd : inl.site.dest = some d) : d ∈ defsOf (inl.caller.body inl.block) := by
  rw [body_block, defsOf_append, defsOf_cons, inl.call_eq]
  simp [Operation.dest?, hd]

theorem dest_not_before (hd : inl.site.dest = some d) : d ∉ defsOf inl.before := by
  intro hmem
  obtain ⟨i, hi, hdest⟩ := mem_defsOf.mp hmem
  obtain ⟨index, hlt, rfl⟩ := List.getElem_of_mem hi
  have hbefore : (inl.caller.body inl.block)[index]? = some inl.before[index] := by
    rw [body_block, List.getElem?_append_left hlt, List.getElem?_eq_getElem hlt]
  have hcall : (inl.caller.body inl.block)[inl.before.length]? = some inl.call := by
    rw [body_block]
    simp
  have hop : inl.call.op.dest? = some d := by
    rw [inl.call_eq]
    exact hd
  have := (Function.place_unique inl.wellFormed.nodup hbefore hdest hcall hop).2
  omega

/-- Where the result of the call has a value in the caller, control has come through the
block behind the call. -/
theorem dest_passed {a b : BlockId} {passed done : List Instruction} (hd : inl.site.dest = some d)
    (hat : inl.At a passed b done) (hvisible : inl.caller.Visible a passed d)
    (hwalk : inl.result.Walk (b :: rest)) :
    (b = inl.cont ∧ ∀ x ∈ defsOf inl.merge, x ∈ defsOf done) ∨ inl.cont ∈ rest := by
  obtain ⟨old, hfollows⟩ := inl.exists_follows hwalk
  have hold := hfollows.walk
  rw [inl.owner_of_at hat] at hold
  have hnodup := inl.wellFormed.nodup
  have hbody := inl.dest_mem_body hd
  rcases hvisible old hold with hparam | hdone | ⟨e, he, hx⟩
  · exact absurd hparam (Function.not_parameter_of_body hnodup hbody)
  · cases hat with
    | @early _ block _ _ hb hkept _ =>
        have hmem : d ∈ defsOf (inl.kept a block) := Function.defsOf_subset hkept hdone
        rcases eq_or_ne a inl.block with rfl | hne
        · rw [kept, if_pos rfl] at hmem
          exact absurd hmem (inl.dest_not_before hd)
        · rw [kept, if_neg hne, ← Function.body_eq hb] at hmem
          exact absurd (Function.block_unique hnodup hmem hbody) hne
    | late hmerge => exact .inl ⟨rfl, hmerge⟩
  · rw [Function.block_unique hnodup hx hbody] at he
    exact .inr (hfollows.resumed he)

/-- A variable that is read where the call stands has a value wherever control has come
through the call. -/
theorem available_of_before (hvisible : inl.caller.Visible inl.block inl.before y)
    (hne : inl.site.dest ≠ some y) {b : BlockId} (hwalk : inl.result.Walk (b :: rest))
    (hmem : inl.block ∈ rest) (done : List Instruction) : inl.result.Available rest done y := by
  obtain ⟨front, outer, rfl⟩ := List.append_of_mem hmem
  have hcall : inl.result.Walk (inl.block :: outer) := by
    rw [← List.cons_append] at hwalk
    exact hwalk.suffix
  have hat : inl.At inl.block inl.before inl.block (inl.result.body inl.block) := by
    refine .early inl.block_eq ?_ fun x hx => inl.defsOf_body_block hx
    rw [kept, if_pos rfl]
    exact List.Subset.refl _
  refine (inl.available_caller hat hne hvisible hcall).later hmem ?_ done
  exact fun e he => List.mem_append_right _ (List.mem_cons_of_mem _ he)

/-- What has a value in the callee has one at the same place of the copy. -/
theorem available_callee {passed done : List Instruction} (hcopies : inl.Copies passed done)
    (hx : x ∉ inl.callee.parameters) (hvisible : inl.callee.Visible c passed x)
    (hwalk : inl.result.Walk (inl.clone c :: rest)) :
    inl.result.Available rest done (inl.names.dest x) := by
  have hentry : inl.names.dest x ∈ defsOf inl.allocas →
      inl.result.Available rest done (inl.names.dest x) := by
    intro halloca
    have hmem := (List.mem_cons.mp hwalk.start_mem).resolve_left
      (inl.clone_ne (Nat.le_of_lt inl.entry_lt)).symm
    exact .inr (.inr ⟨inl.caller.entry, hmem, inl.defsOf_body_entry halloca⟩)
  obtain ⟨inner, outer, rfl, hinner⟩ := inl.walk_clone hwalk
  rcases hvisible inner hinner with hparam | hdone | ⟨e, he, hdef⟩
  · exact absurd hparam hx
  · rcases hcopies x hdone with hcopy | halloca
    · exact .inr (.inl hcopy)
    · exact hentry halloca
  · obtain ⟨i, hi, _⟩ := mem_defsOf.mp hdef
    obtain ⟨block, he', _⟩ := Function.block?_of_mem_body hi
    rw [Function.body_eq he'] at hdef
    rcases inl.copies_body he' x hdef with hcopy | halloca
    · refine .inr (.inr ⟨inl.clone e, ?_, hcopy⟩)
      exact List.mem_append_left _ (List.mem_map_of_mem he)
    · exact hentry halloca

/-! ## The result is well formed -/

theorem subst_var_of_ne (hne : inl.site.dest ≠ some y) : inl.subst (.var y) = .var y := by
  have hreplace : ∀ d value, inl.site.dest = some d →
      Operand.replaceVar d value (.var y) = .var y := by
    intro d value hd
    refine if_neg fun heq => hne ?_
    rw [hd, Operand.var.inj heq]
  rcases inl.binding_cases with ⟨_, h, _⟩ | ⟨d, hd, _, h, _⟩ | ⟨d, _, _, hd, _, h, _⟩ |
    ⟨_, _, _, _, _, _, h, _⟩
  · rw [h]
    rfl
  · rw [h, hreplace d _ hd]
  · rw [h, hreplace d _ hd]
  · rw [h]
    rfl

theorem subst_const (value : Constant) : inl.subst (.const value) = .const value := by
  rcases inl.binding_cases with ⟨_, h, _⟩ | ⟨_, _, _, h, _⟩ | ⟨_, _, _, _, _, h, _⟩ |
    ⟨_, _, _, _, _, _, h, _⟩ <;> rw [h] <;> rfl

/-- What is read in place of the result of the call: the merged value, poison, or the one
value that is returned. -/
theorem subst_dest (hd : inl.site.dest = some d) :
    (inl.subst (.var d) = .var d ∧ d ∈ defsOf inl.merge) ∨
    (inl.subst (.var d) = .poison inl.site.returnType ∧ inl.returned = []) ∨
    ∃ value source, inl.subst (.var d) = value ∧ inl.returned = [(value, source)] := by
  have hreplace : ∀ value, Operand.replaceVar d value (.var d) = value := fun _ => if_pos rfl
  rcases inl.binding_cases with ⟨hnone, _, _⟩ | ⟨d', hd', hreturned, hsubst, _⟩ |
    ⟨d', value, source, hd', hreturned, hsubst, _⟩ | ⟨d', _, _, _, hd', _, hsubst, hmerge⟩
  · rw [hd] at hnone
    cases hnone
  · obtain rfl := Option.some.inj (hd.symm.trans hd')
    rw [hsubst, hreplace]
    exact .inr (.inl ⟨rfl, hreturned⟩)
  · obtain rfl := Option.some.inj (hd.symm.trans hd')
    rw [hsubst, hreplace]
    exact .inr (.inr ⟨value, source, rfl, hreturned⟩)
  · obtain rfl := Option.some.inj (hd.symm.trans hd')
    rw [hsubst, hmerge]
    exact .inl ⟨rfl, List.mem_singleton_self _⟩

/-- What the callee reads is, in the caller, a constant, an argument or a new variable. -/
theorem operand_cases {passed : List Instruction} (hreads : inl.callee.Reads c passed o)
    (hy : inl.names.operand o = .var y) :
    .var y ∈ inl.site.args ∨ ∃ x, o = .var x ∧ x ∉ inl.callee.parameters ∧
      x ∈ inl.callee.blocks.flatMap Block.defs ∧ y = inl.names.dest x := by
  cases o with
  | const value => cases hy
  | var x =>
      have hdefined := inl.callee_wellFormed.reads_defined c passed x hreads
      by_cases hx : x ∈ inl.callee.parameters
      · rw [← hy]
        exact .inl (inl.copies.operand_mem_args hx)
      · rw [inl.copies.operand_inner hx (inl.callee_recorded x hdefined)] at hy
        exact .inr ⟨x, rfl, hx, (List.mem_append.mp hdefined).resolve_left hx,
          (Operand.var.inj hy).symm⟩

theorem reads_arg (ho : o ∈ inl.site.args) : inl.caller.Reads inl.block inl.before o := by
  refine .instruction inl.block_eq inl.split inl.call_not_phi ?_
  rw [inl.call_eq]
  exact List.mem_cons_of_mem _ ho

theorem reads_returned {value : Operand} {source : BlockId} (h : (value, source) ∈ inl.returned) :
    ∃ c passed o, inl.callee.Reads c passed o ∧ inl.names.operand o = value := by
  obtain ⟨c, block, value, hc, hret, hvalue, _⟩ := inl.mem_returned.mp h
  refine ⟨c, _, value, .terminator hc ?_, hvalue.symm⟩
  rw [hret]
  exact List.mem_singleton_self _

/-- If the result is used and some value is returned, every return carries a value. -/
theorem returns_value (hd : inl.site.dest.isSome = true) (hreturned : inl.returned ≠ [])
    {block : Block} (hc : inl.callee.block? c = some block)
    (hreturn : block.terminator.isReturn = true) :
    ∃ value, block.terminator = .ret (some value) := by
  have hmem : block ∈ inl.callee.blocks := List.mem_of_getElem? hc
  cases hterm : block.terminator with
  | ret result =>
      cases result with
      | some value => exact ⟨value, rfl⟩
      | none =>
          rcases inl.returns_agree hd with hall | hnone
          · exact absurd hterm (hall block hmem)
          · obtain ⟨⟨o, b⟩, hentry⟩ := List.exists_mem_of_ne_nil _ hreturned
            obtain ⟨c', block', value, hc', hret, _⟩ := inl.mem_returned.mp hentry
            exact absurd hret (hnone block' (List.mem_of_getElem? hc') value)
  | _ => simp [hterm, Terminator.isReturn] at hreturn

section

variable (hargs : ∀ d, inl.site.dest = some d → .var d ∉ inl.site.args)

include hargs

theorem operand_ne_dest {passed : List Instruction} (hreads : inl.callee.Reads c passed o)
    (hy : inl.names.operand o = .var y) : inl.site.dest ≠ some y := by
  intro hd
  rcases inl.operand_cases hreads hy with harg | ⟨x, _, _, hx, rfl⟩
  · exact hargs y hd harg
  · exact inl.not_mem_caller_of_copied (List.mem_map_of_mem hx) (inl.dest_mem_defined hd)

theorem operand_defined {passed : List Instruction} (hreads : inl.callee.Reads c passed o)
    (hy : inl.names.operand o = .var y) : y ∈ inl.result.defined := by
  rcases inl.operand_cases hreads hy with harg | ⟨x, _, _, hx, rfl⟩
  · apply inl.mem_result_of_caller
    · exact inl.wellFormed.reads_defined _ _ y (inl.reads_arg harg)
    · exact inl.operand_ne_dest hargs hreads hy
  · exact inl.mem_result_of_callee hx

theorem operand_available {passed done : List Instruction} (hreads : inl.callee.Reads c passed o)
    (hy : inl.names.operand o = .var y) (hcopies : inl.Copies passed done)
    (hwalk : inl.result.Walk (inl.clone c :: rest)) : inl.result.Available rest done y := by
  rcases inl.operand_cases hreads hy with harg | ⟨x, rfl, hparam, _, rfl⟩
  · have hvisible := inl.wellFormed.reads_visible _ _ y (inl.reads_arg harg)
    obtain ⟨inner, outer, rfl, _⟩ := inl.walk_clone hwalk
    exact inl.available_of_before hvisible (inl.operand_ne_dest hargs hreads hy) hwalk
      (List.mem_append_right _ List.mem_cons_self) done
  · exact inl.available_callee hcopies hparam
      (inl.callee_wellFormed.reads_visible c passed x hreads) hwalk

/-- A variable that is read in the result was read in the caller, merges what is returned,
is the one value that is returned, or was read in the callee. -/
theorem reads_cases {b : BlockId} {done : List Instruction} (h : inl.result.Reads b done (.var y)) :
    (∃ a passed, inl.caller.Reads a passed (.var y) ∧ inl.site.dest ≠ some y ∧
      inl.At a passed b done) ∨
    (∃ a passed d, inl.site.dest = some d ∧ inl.caller.Reads a passed (.var d) ∧
      inl.At a passed b done ∧
      (y ∈ defsOf inl.merge ∨ ∃ source, inl.returned = [(.var y, source)])) ∨
    ∃ c passed o, inl.callee.Reads c passed o ∧ inl.names.operand o = .var y ∧
      b = inl.clone c ∧ inl.Copies passed done := by
  rcases inl.origin_of_reads h with
    ⟨a, passed, o, hreads, heq, hat⟩ | ⟨c, passed, o, hreads, heq, hb, hcopies⟩
  · cases o with
    | const value =>
        rw [subst_const] at heq
        cases heq
    | var x =>
        by_cases hd : inl.site.dest = some x
        · refine .inr (.inl ⟨a, passed, x, hd, hreads, hat, ?_⟩)
          rcases inl.subst_dest hd with ⟨hsame, hmerge⟩ | ⟨hpoison, _⟩ |
            ⟨value, source, hvalue, hreturned⟩
          · rw [hsame] at heq
            obtain rfl := Operand.var.inj heq
            exact .inl hmerge
          · rw [hpoison] at heq
            cases heq
          · rw [hvalue] at heq
            rw [← heq] at hreturned
            exact .inr ⟨source, hreturned⟩
        · rw [inl.subst_var_of_ne hd] at heq
          obtain rfl := Operand.var.inj heq
          exact .inl ⟨a, passed, hreads, hd, hat⟩
  · cases hrenamed : inl.names.operand o with
    | const value =>
        rw [hrenamed, subst_const] at heq
        cases heq
    | var z =>
        rw [hrenamed, inl.subst_var_of_ne (inl.operand_ne_dest hargs hreads hrenamed)] at heq
        obtain rfl := Operand.var.inj heq
        exact .inr (.inr ⟨c, passed, o, hreads, hrenamed, hb, hcopies⟩)

theorem result_reads_defined {b : BlockId} {done : List Instruction}
    (h : inl.result.Reads b done (.var y)) : y ∈ inl.result.defined := by
  rcases inl.reads_cases hargs h with ⟨a, passed, hreads, hne, _⟩ |
    ⟨a, passed, d, hd, hreads, _, hmerge | ⟨source, hreturned⟩⟩ | ⟨c, passed, o, hreads, hy, _⟩
  · exact inl.mem_result_of_caller (inl.wellFormed.reads_defined _ _ _ hreads) hne
  · exact inl.mem_result_of_merge hmerge
  · have hmem : (.var y, source) ∈ inl.returned := by simp [hreturned]
    obtain ⟨c, passed, o, hvalue, hy⟩ := inl.reads_returned hmem
    exact inl.operand_defined hargs hvalue hy
  · exact inl.operand_defined hargs hreads hy

/-- Behind the call, the one value that is returned has a value. -/
theorem returned_available {source : BlockId} (hd : inl.site.dest.isSome = true)
    (hreturned : inl.returned = [(.var y, source)]) (hwalk : inl.result.Walk (inl.cont :: rest))
    (done : List Instruction) : inl.result.Available rest done y := by
  obtain ⟨c, block, inner, outer, rfl, hc, hreturn, _, hclone⟩ := inl.walk_cont hwalk
  obtain ⟨value, hvalue⟩ := inl.returns_value hd (by simp [hreturned]) hc hreturn
  have hmem : (inl.names.operand value, inl.clone c) ∈ inl.returned :=
    inl.mem_returned.mpr ⟨c, block, value, hc, hvalue, rfl, rfl⟩
  rw [hreturned, List.mem_singleton] at hmem
  have hreads : inl.callee.Reads c block.instructions value := by
    refine .terminator hc ?_
    rw [hvalue]
    exact List.mem_singleton_self _
  refine (inl.operand_available hargs hreads (Prod.mk.inj hmem).1 (inl.copies_body hc)
    hclone).later ?_ ?_ done
  · exact List.mem_cons_self
  · exact fun e he => List.mem_cons_of_mem _ he

theorem result_reads_visible {b : BlockId} {done : List Instruction}
    (h : inl.result.Reads b done (.var y)) : inl.result.Visible b done y := by
  intro rest hwalk
  rcases inl.reads_cases hargs h with ⟨a, passed, hreads, hne, hat⟩ |
    ⟨a, passed, d, hd, hreads, hat, hresult⟩ | ⟨c, passed, o, hreads, hy, rfl, hcopies⟩
  · exact inl.available_caller hat hne (inl.wellFormed.reads_visible _ _ _ hreads) hwalk
  · have hvisible := inl.wellFormed.reads_visible _ _ _ hreads
    rcases inl.dest_passed hd hat hvisible hwalk with ⟨rfl, hdone⟩ | hcont
    · rcases hresult with hmerge | ⟨source, hreturned⟩
      · exact .inr (.inl (hdone y hmerge))
      · exact inl.returned_available hargs (by simp [hd]) hreturned hwalk done
    · rcases hresult with hmerge | ⟨source, hreturned⟩
      · refine .inr (.inr ⟨inl.cont, hcont, ?_⟩)
        rw [defsOf_body_cont]
        exact List.mem_append_left _ hmerge
      · obtain ⟨front, outer, rfl⟩ := List.append_of_mem hcont
        rw [← List.cons_append] at hwalk
        refine (inl.returned_available hargs (by simp [hd]) hreturned hwalk.suffix
          (inl.result.body inl.cont)).later hcont ?_ done
        exact fun e he => List.mem_append_right _ (List.mem_cons_of_mem _ he)
  · exact inl.operand_available hargs hreads hy hcopies hwalk

end

theorem result_phi_sources {b a : BlockId} {i : Instruction} {dest : ValueId} {ty : Ty}
    {incoming : List (Operand × BlockId)} (hi : i ∈ inl.result.body b)
    (hop : i.op = .phi dest ty incoming) :
    a ∈ incoming.map Prod.snd ↔ b ∈ inl.result.successors a := by
  rw [mem_successors_result]
  obtain ⟨block, hblock, hi⟩ := Function.block?_of_mem_body hi
  rcases inl.result_cases hblock with ⟨old, hb, rfl⟩ | ⟨rfl, rfl⟩ | ⟨c, old, rfl, hc, rfl⟩
  · obtain ⟨j, entries, hj, hjop, rfl⟩ := inl.phi_caller hop hb hi
    have hsources := inl.wellFormed.phi_sources b j hj dest ty entries hjop
    rw [inl.flow_caller_iff (List.getElem?_eq_some_iff.mp hb).1, List.map_map]
    change a ∈ entries.map (inl.moved ∘ Prod.snd) ↔ _
    rw [← List.map_map, List.mem_map]
    exact exists_congr fun e => by rw [hsources e, and_comm]
  · obtain ⟨hreturned, hdest, rfl⟩ := inl.phi_cont hop hi
    rw [List.map_map]
    change a ∈ inl.returned.map Prod.snd ↔ _
    constructor
    · intro ha
      obtain ⟨⟨o, _⟩, hentry, rfl⟩ := List.mem_map.mp ha
      obtain ⟨c, old, value, hc, hret, _, rfl⟩ := inl.mem_returned.mp hentry
      exact .leave hc (by rw [hret]; rfl)
    · intro hflow
      obtain ⟨c, old, rfl, hc, hreturn⟩ := inl.flow_cont hflow
      obtain ⟨value, hvalue⟩ := inl.returns_value (by simp [hdest]) hreturned hc hreturn
      have hentry := inl.mem_returned.mpr ⟨c, old, value, hc, hvalue, rfl, rfl⟩
      exact List.mem_map.mpr ⟨_, hentry, rfl⟩
  · obtain ⟨j, d, entries, hj, hjop, rfl⟩ := inl.phi_clone hop hc hi
    have hne : c ≠ inl.callee.entry := by
      rintro rfl
      have := inl.entry_not_phi j hj
      rw [hjop] at this
      cases this
    have hsources := inl.callee_wellFormed.phi_sources c j hj d ty entries hjop
    rw [inl.flow_clone_iff hne, List.map_map]
    change a ∈ entries.map (inl.clone ∘ Prod.snd) ↔ _
    rw [← List.map_map, List.mem_map]
    exact exists_congr fun e => by rw [hsources e, and_comm]

/-- Inlining a call whose result is none of its arguments keeps the body well formed. -/
theorem result_wellFormed (hargs : ∀ d, inl.site.dest = some d → .var d ∉ inl.site.args) :
    inl.result.WellFormed where
  entry_lt := inl.result_shaped.entry_lt
  targets_lt := inl.result_shaped.targets_lt
  entry_not_successor := inl.result_shaped.entry_not_successor
  phis_first := inl.result_shaped.phis_first
  phi_sources _ _ hi _ _ _ hop _ := inl.result_phi_sources hi hop
  nodup := inl.result_nodup
  reads_defined _ _ _ h := inl.result_reads_defined hargs h
  reads_visible _ _ _ h := inl.result_reads_visible hargs h

end Monolith.SoundInlining

import Monolith.Proofs.Inlining.Shape

/-! # Names, definitions and walks after inlining

Between well-formed bodies, the copied variables get new names, which no variable of
the caller has. The variables that are defined are those of the caller and the new
ones. A walk through the result follows one through the caller, and, in the copies,
one through the callee.
-/

namespace Monolith

variable {x : ValueId} {b : BlockId} {rest : List BlockId}

/-- A call in a well-formed body, of a function with a well-formed body whose entry has no
phi. -/
structure SoundInlining extends Inlining where
  wellFormed : caller.WellFormed
  callee_wellFormed : site.callee.WellFormed
  recorded : ∀ x ∈ caller.defined, x < caller.values.length
  callee_recorded : ∀ x ∈ site.callee.defined, x < site.callee.values.length
  arity : site.args.length = site.callee.parameters.length
  entry_not_phi : ∀ i ∈ site.callee.body site.callee.entry, i.op.isPhi = false
  returns_agree : site.dest.isSome = true → site.callee.ReturnsAgree

namespace SoundInlining

open Inlining

variable (inl : SoundInlining)

/-! ## The names of the copied variables -/

theorem copies : inl.names.Copies inl.callee inl.site.args inl.caller.values.length where
  values := rfl
  nodup := (List.nodup_append.mp inl.callee_wellFormed.nodup).1
  arity := inl.arity

/-! ## The definitions of the result -/

theorem count_hoist (instructions : List Instruction) (x : ValueId) :
    (defsOf (inl.hoist inl.caller.entry instructions)).count x =
      (defsOf instructions).count x + (defsOf inl.allocas).count x := by
  rw [hoist, if_pos rfl]
  generalize (instructions.findIdx fun i => !i.op.isPhi && !i.op.isAlloca) = place
  nth_rewrite 3 [← List.take_append_drop place instructions]
  simp only [defsOf_append, List.count_append]
  omega

/-- The split takes away the call only. -/
theorem count_splitBlocks (x : ValueId) :
    (inl.splitBlocks.flatMap Block.defs).count x + inl.site.dest.toList.count x =
      (inl.caller.blocks.flatMap Block.defs).count x := by
  have hdefs : ∀ block : Block,
      (block.mapInstructions (·.map (·.mapIncoming inl.moved))).defs = block.defs :=
    fun block => defsOf_mapIncoming inl.moved block.instructions
  have hhead : inl.head.defs.count x = (defsOf inl.before).count x +
      (inl.site.dest.toList.count x + (defsOf inl.after).count x) := by
    change (defsOf inl.head.instructions).count x = _
    rw [inl.split, defsOf_append, defsOf_cons, inl.call_eq, List.count_append, List.count_append]
    rfl
  have hmodify := count_flatMap_modify inl.block_eq (fun head =>
    { head with instructions := inl.before, terminator := .unreachable }) x
  change _ = _ + (defsOf inl.before).count x at hmodify
  have htail : inl.tail.defs.count x = (defsOf inl.after).count x := rfl
  rw [splitBlocks, List.flatMap_map, funext hdefs, List.flatMap_append, List.count_append,
    List.flatMap_singleton, htail]
  omega

theorem count_copyBlocks (x : ValueId) :
    ((inl.callee.copyBlocks inl.names inl.cont).flatMap Block.defs).count x =
      ((inl.callee.blocks.flatMap Block.defs).map inl.names.dest).count x := by
  have hcopy : (inl.callee.copyBlocks inl.names inl.cont).flatMap Block.defs =
      inl.callee.blocks.zipIdx.flatMap fun entry => entry.1.defs.map inl.names.dest := by
    rw [Function.copyBlocks, List.flatMap_map]
    exact congrArg (List.flatMap · _)
      (funext fun entry => inl.names.defsOf_copy entry.1.instructions)
  rw [hcopy, List.map_flatMap]
  nth_rewrite 2 [← List.zipIdx_map_fst 0 inl.callee.blocks]
  rw [List.flatMap_map]

/-- Moving the allocas takes nothing away. -/
theorem count_hoistedBlocks (x : ValueId) :
    (inl.hoistedBlocks.flatMap Block.defs).count x =
      (inl.spread.blocks.flatMap Block.defs).count x := by
  obtain ⟨source, hsource, hbody⟩ := inl.exists_entry
  obtain ⟨entry, hentry⟩ := inl.exists_caller_entry
  have hdrop := count_flatMap_modify (inl.spread_clone hsource)
    (·.mapInstructions (·.drop inl.allocas.length)) x
  have hne : inl.clone inl.callee.entry ≠ inl.caller.entry :=
    inl.clone_ne (Nat.le_of_lt inl.entry_lt)
  have hplaced := (List.getElem?_modify_ne (·.mapInstructions (·.drop inl.allocas.length))
    inl.spread.blocks hne).trans (inl.spread_of_block? hentry)
  have hhoist := count_flatMap_modify hplaced
    (·.mapInstructions (inl.hoist inl.caller.entry)) x
  change _ = _ + (defsOf (inl.hoist inl.caller.entry _)).count x at hhoist
  rw [count_hoist] at hhoist
  change (inl.hoistedBlocks.flatMap Block.defs).count x + (defsOf _).count x = _ at hhoist
  have hsplit : (defsOf inl.entryCopy).count x = (defsOf inl.allocas).count x +
      (defsOf (inl.entryCopy.drop inl.allocas.length)).count x := by
    nth_rewrite 1 [entryCopy_eq]
    rw [defsOf_append, List.count_append]
  have hcopy : (inl.copy inl.callee.entry source).instructions = inl.entryCopy := by
    rw [entryCopy, hbody]
    rfl
  change _ + (defsOf (inl.copy inl.callee.entry source).instructions).count x =
    _ + (defsOf ((inl.copy inl.callee.entry source).instructions.drop _)).count x at hdrop
  rw [hcopy] at hdrop
  omega

/-- The result defines what the caller and the callee define; the result of the call is
defined only if it is merged. -/
theorem count_defined (x : ValueId) :
    inl.result.defined.count x + inl.site.dest.toList.count x =
      inl.caller.defined.count x + (defsOf inl.merge).count x +
        ((inl.callee.blocks.flatMap Block.defs).map inl.names.dest).count x := by
  obtain ⟨head, hhead⟩ := inl.hoistedBlocks_block
  have hjoined := count_flatMap_modify hhead
    (fun block => { block with terminator := .jump (inl.clone inl.callee.entry) }) x
  change (inl.joinedBlocks.flatMap Block.defs).count x + head.defs.count x =
    _ + head.defs.count x at hjoined
  have hmerge := count_flatMap_modify inl.joinedBlocks_cont
    (·.mapInstructions (inl.merge ++ ·)) x
  change _ + (defsOf inl.after).count x = _ + (defsOf (inl.merge ++ inl.after)).count x at hmerge
  rw [defsOf_append, List.count_append] at hmerge
  have hspread : (inl.spread.blocks.flatMap Block.defs).count x =
      (inl.splitBlocks.flatMap Block.defs).count x +
        ((inl.callee.blocks.flatMap Block.defs).map inl.names.dest).count x := by
    rw [← count_copyBlocks, spread, List.flatMap_append, List.count_append]
  have hhoisted := inl.count_hoistedBlocks x
  have hsplit := inl.count_splitBlocks x
  have hresult : inl.result.blocks.flatMap Block.defs =
      (inl.joinedBlocks.modify inl.cont (·.mapInstructions (inl.merge ++ ·))).flatMap
        Block.defs := by
    rw [result, List.flatMap_map]
    exact congrArg (List.flatMap · _) (funext (Block.defs_mapOperands inl.subst))
  have hparameters : inl.result.parameters = inl.caller.parameters := rfl
  rw [Function.defined, Function.defined, hresult, hparameters, List.count_append,
    List.count_append]
  omega

theorem inner_of_defs (hx : x ∈ inl.callee.blocks.flatMap Block.defs) :
    x ∉ inl.callee.parameters ∧ x < inl.callee.values.length := by
  have hnodup := List.nodup_append.mp inl.callee_wellFormed.nodup
  exact ⟨fun hparam => hnodup.2.2 x hparam x hx rfl,
    inl.callee_recorded x (List.mem_append_right _ hx)⟩

theorem dest_mem_defined {d : ValueId} (hd : inl.site.dest = some d) : d ∈ inl.caller.defined := by
  refine List.mem_append_right _ (List.mem_flatMap.mpr ⟨inl.head, ?_, ?_⟩)
  · exact List.mem_of_getElem? inl.block_eq
  · refine mem_defsOf.mpr ⟨inl.call, ?_, ?_⟩
    · rw [inl.split]
      simp
    · rw [inl.call_eq]
      exact hd

theorem defsOf_merge (hx : x ∈ defsOf inl.merge) : inl.site.dest = some x := by
  rcases inl.binding_cases with ⟨_, _, hmerge⟩ | ⟨_, _, _, _, hmerge⟩ | ⟨_, _, _, _, _, _, hmerge⟩ |
    ⟨dest, _, _, _, hdest, _, _, hmerge⟩
  · simp [hmerge] at hx
  · simp [hmerge] at hx
  · simp [hmerge] at hx
  · rw [hmerge] at hx
    obtain rfl := List.mem_singleton.mp hx
    exact hdest

theorem copies_nodup : ((inl.callee.blocks.flatMap Block.defs).map inl.names.dest).Nodup := by
  have hnodup := (List.nodup_append.mp inl.callee_wellFormed.nodup).2.1
  refine List.Nodup.map_on ?_ hnodup
  intro x hx y hy heq
  obtain ⟨hxp, hxlt⟩ := inl.inner_of_defs hx
  obtain ⟨hyp, hylt⟩ := inl.inner_of_defs hy
  exact inl.copies.dest_inj hxp hxlt hyp hylt heq

/-- New names are not names of the caller. -/
theorem not_mem_caller_of_copied
    (hx : x ∈ (inl.callee.blocks.flatMap Block.defs).map inl.names.dest) :
    x ∉ inl.caller.defined := by
  obtain ⟨y, hy, rfl⟩ := List.mem_map.mp hx
  obtain ⟨hyp, hylt⟩ := inl.inner_of_defs hy
  intro hmem
  exact absurd (inl.recorded _ hmem) (Nat.not_lt.mpr (inl.copies.le_dest hyp hylt))

theorem result_nodup : inl.result.defined.Nodup := by
  rw [List.nodup_iff_count_le_one]
  intro x
  have hcount := inl.count_defined x
  have hcaller := List.nodup_iff_count_le_one.mp inl.wellFormed.nodup x
  have hcopies := List.nodup_iff_count_le_one.mp inl.copies_nodup x
  have hmerge : (defsOf inl.merge).count x ≤ inl.site.dest.toList.count x := by
    by_cases hx : x ∈ defsOf inl.merge
    · have hone : (defsOf inl.merge).count x ≤ 1 := by
        rcases inl.binding_cases with ⟨_, _, h⟩ | ⟨_, _, _, _, h⟩ | ⟨_, _, _, _, _, _, h⟩ |
          ⟨dest, _, _, _, _, _, _, h⟩
        · simp [h]
        · simp [h]
        · simp [h]
        · rw [h]
          exact List.count_le_length
      rw [inl.defsOf_merge hx]
      simpa using hone
    · rw [List.count_eq_zero_of_not_mem hx]
      exact Nat.zero_le _
  by_cases hx : x ∈ (inl.callee.blocks.flatMap Block.defs).map inl.names.dest
  · have := List.count_eq_zero_of_not_mem (inl.not_mem_caller_of_copied hx)
    omega
  · have := List.count_eq_zero_of_not_mem hx
    omega

theorem mem_result_of_caller (hx : x ∈ inl.caller.defined) (hne : inl.site.dest ≠ some x) :
    x ∈ inl.result.defined := by
  have hcount := inl.count_defined x
  have hdest : inl.site.dest.toList.count x = 0 :=
    List.count_eq_zero_of_not_mem (by simpa using hne)
  have hpos := List.count_pos_iff.mpr hx
  exact List.count_pos_iff.mp (by omega)

theorem mem_result_of_merge (hx : x ∈ defsOf inl.merge) : x ∈ inl.result.defined := by
  have hcount := inl.count_defined x
  have hdest : inl.site.dest.toList.count x = 1 := by simp [inl.defsOf_merge hx]
  have hpos := List.count_pos_iff.mpr hx
  have hcaller := List.count_pos_iff.mpr (inl.dest_mem_defined (inl.defsOf_merge hx))
  exact List.count_pos_iff.mp (by omega)

theorem mem_result_of_callee (hx : x ∈ inl.callee.blocks.flatMap Block.defs) :
    inl.names.dest x ∈ inl.result.defined := by
  have hcopied := List.mem_map_of_mem (f := inl.names.dest) hx
  have hne : inl.site.dest ≠ some (inl.names.dest x) := by
    intro hdest
    exact inl.not_mem_caller_of_copied hcopied (inl.dest_mem_defined hdest)
  have hcount := inl.count_defined (inl.names.dest x)
  have hdest : inl.site.dest.toList.count (inl.names.dest x) = 0 :=
    List.count_eq_zero_of_not_mem (by simpa using hne)
  have hpos := List.count_pos_iff.mpr hcopied
  exact List.count_pos_iff.mp (by omega)

/-! ## Walks through the result -/

theorem edge_result_iff {a : BlockId} :
    inl.result.Edge a b ↔ inl.Flow a b ∧ b < inl.result.blocks.length := by
  rw [Function.edge_iff, mem_successors_result]

/-- The block of the caller that control is in: in an added block, it is at the call. -/
def owner (b : BlockId) : BlockId := if b < inl.cont then b else inl.block

theorem owner_of_lt (h : b < inl.cont) : inl.owner b = b := if_pos h

theorem owner_cont : inl.owner inl.cont = inl.block := if_neg (Nat.lt_irrefl _)

theorem owner_clone (c : BlockId) : inl.owner (inl.clone c) = inl.block :=
  if_neg (Nat.not_lt.mpr (inl.cont_le_clone c))

/-- The walk through the caller that a walk through the result follows: `old` holds what
was passed of it before the block that control is in. -/
structure Follows (b : BlockId) (rest old : List BlockId) : Prop where
  walk : inl.caller.Walk (inl.owner b :: old)
  subset : ∀ e ∈ old, e ∈ rest
  entered : inl.cont ≤ b → inl.block ∈ rest
  resumed : inl.block ∈ old → inl.cont ∈ rest

theorem Follows.step {inl : SoundInlining} {a : BlockId} {old : List BlockId}
    (h : inl.Follows a rest old) (hedge : inl.result.Edge a b) :
    ∃ old', inl.Follows b (a :: rest) old' := by
  have hsame : inl.owner b = inl.owner a → (inl.cont ≤ b → inl.block ∈ a :: rest) →
      inl.Follows b (a :: rest) old := by
    intro howner hentered
    refine ⟨?_, fun e he => List.mem_cons_of_mem _ (h.subset e he), hentered, fun hold => ?_⟩
    · rw [howner]
      exact h.walk
    · exact List.mem_cons_of_mem _ (h.resumed hold)
  cases (inl.edge_result_iff.mp hedge).1 with
  | caller hne hab =>
      obtain ⟨block, hblock, _⟩ := Function.mem_successors.mp hab
      have ha : a < inl.cont := (List.getElem?_eq_some_iff.mp hblock).1
      have hb : b < inl.cont := inl.wellFormed.targets_lt a b hab
      have hwalk := h.walk
      rw [inl.owner_of_lt ha] at hwalk
      refine ⟨a :: old, ?_, ?_, fun hle => absurd hb (Nat.not_lt.mpr hle), ?_⟩
      · rw [inl.owner_of_lt hb]
        exact hwalk.step (Function.edge_iff.mpr ⟨hab, hb⟩)
      · intro e he
        rcases List.mem_cons.mp he with rfl | he
        · exact List.mem_cons_self
        · exact List.mem_cons_of_mem _ (h.subset e he)
      · intro hmem
        rcases List.mem_cons.mp hmem with heq | hmem
        · exact absurd heq.symm hne
        · exact List.mem_cons_of_mem _ (h.resumed hmem)
  | enter =>
      refine ⟨old, hsame ?_ fun _ => List.mem_cons_self⟩
      rw [owner_clone, inl.owner_of_lt inl.block_lt]
  | @callee c d hcd =>
      refine ⟨old, hsame ?_ fun _ => List.mem_cons_of_mem _ (h.entered (inl.cont_le_clone c))⟩
      rw [owner_clone, owner_clone]
  | @leave c block hc hreturn =>
      refine ⟨old, hsame ?_ fun _ => List.mem_cons_of_mem _ (h.entered (inl.cont_le_clone c))⟩
      rw [owner_clone, owner_cont]
  | resume hb =>
      have hlt : b < inl.cont := inl.wellFormed.targets_lt _ b hb
      have hwalk := h.walk
      rw [owner_cont] at hwalk
      refine ⟨inl.block :: old, ?_, ?_, fun hle => absurd hlt (Nat.not_lt.mpr hle),
        fun _ => List.mem_cons_self⟩
      · rw [inl.owner_of_lt hlt]
        exact hwalk.step (Function.edge_iff.mpr ⟨hb, hlt⟩)
      · intro e he
        rcases List.mem_cons.mp he with rfl | he
        · exact List.mem_cons_of_mem _ (h.entered (Nat.le_refl _))
        · exact List.mem_cons_of_mem _ (h.subset e he)

/-- Every walk through the result follows one through the caller. -/
theorem exists_follows (hwalk : inl.result.Walk (b :: rest)) : ∃ old, inl.Follows b rest old := by
  generalize hnodes : b :: rest = nodes at hwalk
  induction hwalk generalizing b rest with
  | start =>
      obtain ⟨rfl, rfl⟩ := List.cons.inj hnodes
      refine ⟨[], ?_, by simp, fun hle => absurd inl.entry_lt (Nat.not_lt.mpr hle), by simp⟩
      have howner : inl.owner inl.result.entry = inl.caller.entry := inl.owner_of_lt inl.entry_lt
      rw [howner]
      exact .start
  | step _ hedge ih =>
      obtain ⟨rfl, rfl⟩ := List.cons.inj hnodes
      obtain ⟨old, hfollows⟩ := ih rfl
      exact hfollows.step hedge

/-- In a copy, control has come from the call along a walk through the callee. -/
theorem walk_clone {c : BlockId} (hwalk : inl.result.Walk (inl.clone c :: rest)) :
    ∃ inner outer, rest = inner.map inl.clone ++ inl.block :: outer ∧
      inl.callee.Walk (c :: inner) := by
  generalize hnodes : inl.clone c :: rest = nodes at hwalk
  induction hwalk generalizing c rest with
  | start =>
      have heq := (List.cons.inj hnodes).1
      exact absurd heq (inl.clone_ne (Nat.le_of_lt inl.entry_lt))
  | @step a b older _ hedge ih =>
      obtain ⟨rfl, rfl⟩ := List.cons.inj hnodes
      obtain ⟨hflow, hlt⟩ := inl.edge_result_iff.mp hedge
      generalize hb : inl.clone c = b at hflow
      cases hflow with
      | caller _ hab =>
          have hle := Nat.le_of_lt (inl.wellFormed.targets_lt _ _ hab)
          exact absurd hb (inl.clone_ne hle)
      | enter =>
          obtain rfl := Nat.add_left_cancel hb
          exact ⟨[], older, rfl, .start⟩
      | callee hcd =>
          obtain rfl := Nat.add_left_cancel hb
          obtain ⟨inner, outer, hrest, hinner⟩ := ih rfl
          refine ⟨_ :: inner, outer, by rw [hrest]; rfl, hinner.step ?_⟩
          exact Function.edge_iff.mpr ⟨hcd, inl.callee_wellFormed.targets_lt _ _ hcd⟩
      | leave => exact absurd hb (inl.clone_ne (Nat.le_refl _))
      | resume hab =>
          have hle := Nat.le_of_lt (inl.wellFormed.targets_lt _ _ hab)
          exact absurd hb (inl.clone_ne hle)

/-- Behind the call, control has come from the copy of a returning block. -/
theorem walk_cont (hwalk : inl.result.Walk (inl.cont :: rest)) :
    ∃ c block inner outer, rest = (c :: inner).map inl.clone ++ inl.block :: outer ∧
      inl.callee.block? c = some block ∧ block.terminator.isReturn = true ∧
      inl.callee.Walk (c :: inner) ∧ inl.result.Walk rest := by
  generalize hnodes : inl.cont :: rest = nodes at hwalk
  cases hwalk with
  | start => exact absurd (List.cons.inj hnodes).1 (Nat.ne_of_gt inl.entry_lt)
  | step hwalk hedge =>
      obtain ⟨rfl, rfl⟩ := List.cons.inj hnodes
      obtain ⟨c, block, rfl, hc, hreturn⟩ := inl.flow_cont (inl.edge_result_iff.mp hedge).1
      obtain ⟨inner, outer, rfl, hinner⟩ := inl.walk_clone hwalk
      exact ⟨c, block, inner, outer, rfl, hc, hreturn, hinner, hwalk⟩

end SoundInlining

end Monolith

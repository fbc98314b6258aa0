import Mathlib.Data.List.TakeWhile
import Monolith.Proofs.Inlining.Body

/-! # Control flow and phis after inlining

Control passes from the call into the copies, from there to the block behind the call,
and else as it did before. The phis are those of the caller and of the callee, and one
of what is returned; they stand at the heads of blocks and list predecessors, if they
did so before.
-/

namespace Monolith.Inlining

variable (inl : Inlining) {b a c : BlockId} {block : Block} {instructions : List Instruction}

/-! ## Control flow of the result -/

/-- What is returned, each with the copy that it is returned from. -/
theorem mem_returned {o : Operand} :
    (o, b) ∈ inl.returned ↔ ∃ c block value, inl.callee.block? c = some block ∧
      block.terminator = .ret (some value) ∧ o = inl.names.operand value ∧ b = inl.clone c := by
  simp only [returned, Function.returns, List.mem_filterMap, Prod.exists,
    List.mem_zipIdx_iff_getElem?]
  constructor
  · rintro ⟨block, c, hc, hreturn⟩
    split at hreturn
    next value hret =>
      have hlt := (List.getElem?_eq_some_iff.mp hc).1
      rw [inl.names_block hlt] at hreturn
      obtain ⟨rfl, rfl⟩ := Prod.mk.inj (Option.some.inj hreturn)
      exact ⟨c, block, value, hc, hret, rfl, rfl⟩
    next => cases hreturn
  · rintro ⟨c, block, value, hc, hret, rfl, rfl⟩
    have hlt := (List.getElem?_eq_some_iff.mp hc).1
    exact ⟨block, c, hc, by simp [hret, inl.names_block hlt]⟩

/-- The copy of a returning block goes on behind the call. -/
theorem targets_terminator (hc : inl.callee.block? c = some block) :
    (inl.names.terminator inl.cont block.terminator).targets =
      if block.terminator.isReturn then [inl.cont] else block.terminator.targets.map inl.clone := by
  have hlt : ∀ t ∈ block.terminator.targets, inl.names.block t = inl.clone t := by
    intro t ht
    apply inl.names_block
    exact inl.callee_shaped.targets_lt c t (Function.mem_successors.mpr ⟨block, hc, ht⟩)
  generalize block.terminator = t at hlt ⊢
  cases t with
  | ret value => rfl
  | unreachable => rfl
  | jump target =>
      simp [Renaming.terminator, Terminator.mapOperands, Terminator.mapTargets, Terminator.targets,
        Terminator.isReturn, hlt target List.mem_cons_self]
  | branch condition onTrue onFalse =>
      have hfalse := hlt onFalse (by simp [Terminator.targets])
      simp [Renaming.terminator, Terminator.mapOperands, Terminator.mapTargets, Terminator.targets,
        Terminator.isReturn, hlt onTrue List.mem_cons_self, hfalse]

theorem successors_of_ne (ha : a < inl.cont) (hne : a ≠ inl.block) :
    inl.result.successors a = inl.caller.successors a := by
  have hblock := List.getElem?_eq_getElem ha
  rw [Function.successors, Function.successors, inl.result_of_block? hblock, Function.block?,
    hblock]
  simp [callerBlock, exit, hne]

theorem successors_block : inl.result.successors inl.block = [inl.clone inl.callee.entry] := by
  rw [Function.successors, inl.result_of_block? inl.block_eq]
  simp only [callerBlock, exit, if_true, Option.map_some, Option.getD_some]
  rfl

theorem successors_cont : inl.result.successors inl.cont = inl.caller.successors inl.block := by
  rw [Function.successors, Function.successors, inl.result_cont, inl.block_eq]
  simp [contBlock, tail]

/-- From a copy, control goes to copies or, if it returned, behind the call. -/
theorem successors_clone (hc : inl.callee.block? c = some block) :
    inl.result.successors (inl.clone c) = if block.terminator.isReturn then [inl.cont]
      else (inl.callee.successors c).map inl.clone := by
  rw [Function.successors, Function.successors, inl.result_clone hc, hc]
  simpa [calleeBlock, copy] using inl.targets_terminator hc

/-- Where control may pass in the result. -/
inductive Flow : BlockId → BlockId → Prop where
  | caller {a b : BlockId} (hne : a ≠ inl.block) (h : b ∈ inl.caller.successors a) : Flow a b
  | enter : Flow inl.block (inl.clone inl.callee.entry)
  | callee {c d : BlockId} (h : d ∈ inl.callee.successors c) : Flow (inl.clone c) (inl.clone d)
  | leave {c : BlockId} {block : Block} (hc : inl.callee.block? c = some block)
      (hreturn : block.terminator.isReturn = true) : Flow (inl.clone c) inl.cont
  | resume {b : BlockId} (h : b ∈ inl.caller.successors inl.block) : Flow inl.cont b

/-- Control passes after inlining as described. -/
theorem mem_successors_result : b ∈ inl.result.successors a ↔ inl.Flow a b := by
  constructor
  · intro h
    obtain ⟨block, hblock, _⟩ := Function.mem_successors.mp h
    rcases inl.result_cases hblock with ⟨old, hold, _⟩ | ⟨rfl, _⟩ | ⟨c, old, rfl, hold, _⟩
    · rcases eq_or_ne a inl.block with rfl | hne
      · rw [successors_block, List.mem_singleton] at h
        rw [h]
        exact .enter
      · rw [inl.successors_of_ne (List.getElem?_eq_some_iff.mp hold).1 hne] at h
        exact .caller hne h
    · rw [successors_cont] at h
      exact .resume h
    · rw [inl.successors_clone hold] at h
      split at h
      next hreturn =>
        rw [List.mem_singleton.mp h]
        exact .leave hold hreturn
      next =>
        obtain ⟨d, hd, rfl⟩ := List.mem_map.mp h
        exact .callee hd
  · intro h
    cases h with
    | caller hne h =>
        obtain ⟨block, hblock, _⟩ := Function.mem_successors.mp h
        rwa [inl.successors_of_ne (List.getElem?_eq_some_iff.mp hblock).1 hne]
    | enter =>
        rw [successors_block]
        exact List.mem_singleton_self _
    | @callee c d h =>
        obtain ⟨block, hblock, htargets⟩ := Function.mem_successors.mp h
        rw [inl.successors_clone hblock, if_neg]
        · exact List.mem_map_of_mem h
        · intro hreturn
          cases hterm : block.terminator with
          | ret value => simp [hterm, Terminator.targets] at htargets
          | _ => simp [hterm, Terminator.isReturn] at hreturn
    | leave hc hreturn =>
        rw [inl.successors_clone hc, if_pos hreturn]
        exact List.mem_singleton_self _
    | resume h => rwa [successors_cont]

theorem cont_le_clone (c : BlockId) : inl.cont ≤ inl.clone c :=
  Nat.le_trans (Nat.le_succ _) (Nat.le_add_right _ _)

theorem flow_cont (h : inl.Flow a inl.cont) :
    ∃ c block, a = inl.clone c ∧ inl.callee.block? c = some block ∧
      block.terminator.isReturn = true := by
  generalize hb : inl.cont = b at h
  cases h with
  | caller _ hab => exact absurd (inl.shaped.targets_lt _ _ hab) (hb ▸ Nat.lt_irrefl _)
  | enter => exact absurd hb.symm (inl.clone_ne (Nat.le_refl _))
  | callee => exact absurd hb.symm (inl.clone_ne (Nat.le_refl _))
  | leave hc hreturn => exact ⟨_, _, rfl, hc, hreturn⟩
  | resume hab => exact absurd (inl.shaped.targets_lt _ _ hab) (hb ▸ Nat.lt_irrefl _)

/-- Into a block of the caller, control comes from where it came before, but from the
block behind the call instead of the call. -/
theorem flow_caller_iff (hb : b < inl.cont) :
    inl.Flow a b ↔ ∃ old, inl.moved old = a ∧ b ∈ inl.caller.successors old := by
  constructor
  · intro h
    cases h with
    | caller hne h => exact ⟨a, if_neg hne, h⟩
    | enter => exact absurd hb (Nat.not_lt.mpr (inl.cont_le_clone _))
    | callee => exact absurd hb (Nat.not_lt.mpr (inl.cont_le_clone _))
    | leave => exact absurd hb (Nat.lt_irrefl _)
    | resume h => exact ⟨inl.block, if_pos rfl, h⟩
  · rintro ⟨old, rfl, h⟩
    rcases eq_or_ne old inl.block with rfl | hne
    · rw [moved, if_pos rfl]
      exact .resume h
    · rw [moved, if_neg hne]
      exact .caller hne h

/-- A copy but that of the entry is reached from copies only. -/
theorem flow_clone_iff (hc : c ≠ inl.callee.entry) :
    inl.Flow a (inl.clone c) ↔ ∃ d, inl.clone d = a ∧ c ∈ inl.callee.successors d := by
  constructor
  · intro h
    generalize hb : inl.clone c = b at h
    cases h with
    | caller _ hab =>
        exact absurd hb (inl.clone_ne (Nat.le_of_lt (inl.shaped.targets_lt _ _ hab)))
    | enter => exact absurd (Nat.add_left_cancel hb) hc
    | callee hcd =>
        obtain rfl := Nat.add_left_cancel hb
        exact ⟨_, rfl, hcd⟩
    | leave => exact absurd hb (inl.clone_ne (Nat.le_refl _))
    | resume hab =>
        exact absurd hb (inl.clone_ne (Nat.le_of_lt (inl.shaped.targets_lt _ _ hab)))
  · rintro ⟨d, rfl, h⟩
    exact .callee h

theorem flow_lt (h : inl.Flow a b) : b < inl.result.blocks.length := by
  have hcont : inl.cont < inl.result.blocks.length := by
    rw [length_result]
    exact Nat.lt_of_lt_of_le (Nat.lt_succ_self _) (Nat.le_add_right _ _)
  have hclone : ∀ c, c < inl.callee.blocks.length → inl.clone c < inl.result.blocks.length := by
    intro c hc
    rw [length_result]
    exact Nat.add_lt_add_left hc _
  cases h with
  | caller _ h => exact Nat.lt_trans (inl.shaped.targets_lt _ _ h) hcont
  | enter => exact hclone _ inl.callee_shaped.entry_lt
  | callee h => exact hclone _ (inl.callee_shaped.targets_lt _ _ h)
  | leave => exact hcont
  | resume h => exact Nat.lt_trans (inl.shaped.targets_lt _ _ h) hcont

/-! ## The phis of the result -/

theorem mem_hoist {i : Instruction} :
    i ∈ inl.hoist b instructions ↔
      i ∈ instructions ∨ b = inl.caller.entry ∧ i ∈ inl.allocas := by
  unfold hoist
  split
  next =>
    generalize (instructions.findIdx fun i => !i.op.isPhi && !i.op.isAlloca) = place
    nth_rewrite 3 [← List.take_append_drop place instructions]
    simp only [List.mem_append]
    tauto
  next hne => simp [hne]

/-- What has become of the instructions of a block of the caller. -/
theorem body_of_block? (hb : inl.caller.block? b = some block) :
    inl.result.body b = (inl.hoist b ((inl.kept b block).map (·.mapIncoming inl.moved))).map
      (·.mapOperands inl.subst) :=
  Function.body_eq (inl.result_of_block? hb)

theorem body_cont :
    inl.result.body inl.cont = (inl.merge ++ inl.after).map (·.mapOperands inl.subst) :=
  Function.body_eq inl.result_cont

/-- What has become of the instructions of a block of the callee. -/
theorem body_clone (hc : inl.callee.block? c = some block) :
    inl.result.body (inl.clone c) = (inl.copied c block).map (·.mapOperands inl.subst) :=
  Function.body_eq (inl.result_clone hc)

/-- The copy of a block lacks at most the allocas that were moved. -/
theorem exists_copied (hc : inl.callee.block? c = some block) :
    ∃ front, block.instructions.map inl.names.instruction = front ++ inl.copied c block ∧
      ∀ i ∈ front, i ∈ inl.allocas := by
  unfold copied
  split
  next heq =>
    subst heq
    have hcopy : block.instructions.map inl.names.instruction = inl.entryCopy := by
      rw [entryCopy, Function.body_eq hc]
    refine ⟨inl.allocas, ?_, fun i hi => hi⟩
    rw [hcopy]
    exact inl.entryCopy_eq
  next => exact ⟨[], by simp, by simp⟩

theorem allocas_isAlloca : ∀ i ∈ inl.allocas, i.op.isAlloca = true := by
  intro i hi
  exact List.mem_takeWhile_imp (p := fun i : Instruction => i.op.isAlloca) hi

theorem merge_isPhi : ∀ i ∈ inl.merge, i.op.isPhi = true := by
  intro i hi
  rcases inl.binding_cases with ⟨_, _, h⟩ | ⟨_, _, _, _, h⟩ | ⟨_, _, _, _, _, _, h⟩ |
    ⟨_, _, _, _, _, _, _, h⟩
  · simp [h] at hi
  · simp [h] at hi
  · simp [h] at hi
  · rw [h] at hi
    obtain rfl := List.mem_singleton.mp hi
    rfl

theorem kept_subset (hb : inl.caller.block? b = some block) :
    inl.kept b block ⊆ inl.caller.body b := by
  unfold kept
  split
  next heq =>
    subst heq
    rw [body_block]
    exact List.subset_append_left _ _
  next =>
    rw [Function.body_eq hb]
    exact List.Subset.refl _

section

variable {i : Instruction} {dest : ValueId} {ty : Ty} {incoming : List (Operand × BlockId)}
  (hop : i.op = .phi dest ty incoming)

include hop

/-- A phi in a block of the caller was there before. -/
theorem phi_caller (hb : inl.caller.block? b = some block)
    (hi : i ∈ (inl.callerBlock b block).instructions) :
    ∃ old entries, old ∈ inl.caller.body b ∧ old.op = .phi dest ty entries ∧
      incoming = entries.map fun (value, source) => (inl.subst value, inl.moved source) := by
  obtain ⟨i₁, hi₁, rfl⟩ := List.mem_map.mp hi
  obtain ⟨entries₁, hop₁, rfl⟩ := Operation.mapOperands_eq_phi hop
  rcases inl.mem_hoist.mp hi₁ with hkept | ⟨_, halloca⟩
  · obtain ⟨old, hold, rfl⟩ := List.mem_map.mp hkept
    obtain ⟨entries, hentries, rfl⟩ := Operation.mapIncoming_eq_phi hop₁
    exact ⟨old, entries, inl.kept_subset hb hold, hentries, by simp⟩
  · have hnot := Operation.isPhi_of_isAlloca (inl.allocas_isAlloca i₁ halloca)
    rw [hop₁] at hnot
    cases hnot

/-- The phi behind the call merges what is returned. -/
theorem phi_cont (hi : i ∈ inl.contBlock.instructions) :
    inl.returned ≠ [] ∧ inl.site.dest = some dest ∧
      incoming = inl.returned.map fun (value, source) => (inl.subst value, source) := by
  obtain ⟨i₁, hi₁, rfl⟩ := List.mem_map.mp hi
  obtain ⟨entries₁, hop₁, rfl⟩ := Operation.mapOperands_eq_phi hop
  rcases List.mem_append.mp hi₁ with hmerge | hafter
  · rcases inl.binding_cases with ⟨_, _, h⟩ | ⟨_, _, _, _, h⟩ | ⟨_, _, _, _, _, _, h⟩ |
      ⟨_, _, _, _, hdest, hreturned, _, h⟩
    · simp [h] at hmerge
    · simp [h] at hmerge
    · simp [h] at hmerge
    · rw [h] at hmerge
      obtain rfl := List.mem_singleton.mp hmerge
      obtain ⟨rfl, _, rfl⟩ := Operation.phi.inj hop₁
      exact ⟨by simp [hreturned], hdest, rfl⟩
  · have hnot := inl.after_not_phi i₁ hafter
    rw [hop₁] at hnot
    cases hnot

/-- A phi in a copy was in the callee. -/
theorem phi_clone (hc : inl.callee.block? c = some block)
    (hi : i ∈ (inl.calleeBlock c block).instructions) :
    ∃ old d entries, old ∈ inl.callee.body c ∧ old.op = .phi d ty entries ∧
      incoming = entries.map fun (value, source) =>
        (inl.subst (inl.names.operand value), inl.clone source) := by
  obtain ⟨i₁, hi₁, rfl⟩ := List.mem_map.mp hi
  obtain ⟨entries₁, hop₁, rfl⟩ := Operation.mapOperands_eq_phi hop
  obtain ⟨old, hold, rfl⟩ := List.mem_map.mp (List.mem_of_mem_drop hi₁)
  obtain ⟨entries₂, hop₂, rfl⟩ := Operation.mapIncoming_eq_phi hop₁
  obtain ⟨d, hop₃, rfl⟩ := Operation.mapDest_eq_phi hop₂
  obtain ⟨entries, hentries, rfl⟩ := Operation.mapOperands_eq_phi hop₃
  rw [← Function.body_eq hc] at hold
  refine ⟨old, d, entries, hold, hentries, ?_⟩
  simp only [List.map_map]
  refine List.map_congr_left fun entry hentry => Prod.ext rfl (inl.names_block ?_)
  have hlisted : entry.2 ∈ old.op.sources := by
    rw [hentries]
    exact List.mem_map_of_mem hentry
  exact inl.callee_shaped.lt_of_listed hold hlisted

end

theorem phisFirst_iff :
    (∀ before i after, instructions = before ++ i :: after → i.op.isPhi = true →
      ∀ j ∈ before, j.op.isPhi = true) ↔
    instructions.Pairwise fun j i => i.op.isPhi = true → j.op.isPhi = true := by
  constructor
  · intro h
    rw [List.pairwise_iff_getElem]
    intro p q hp hq hpq hphi
    have hsplit : instructions =
        instructions.take q ++ instructions[q] :: instructions.drop (q + 1) := by
      rw [← List.drop_eq_getElem_cons hq, List.take_append_drop]
    exact h _ _ _ hsplit hphi _ (List.mem_take_iff_getElem.mpr ⟨p, by omega, rfl⟩)
  · rintro h before i after rfl hphi j hj
    exact (List.pairwise_append.mp h).2.2 j hj i List.mem_cons_self hphi

theorem body_phisFirst {f : Function} (h : f.WellShaped) (b : BlockId) :
    (f.body b).Pairwise fun j i => i.op.isPhi = true → j.op.isPhi = true :=
  phisFirst_iff.mp (h.phis_first b)

/-- The allocas are put in where no phi follows. -/
theorem hoist_phisFirst
    (h : instructions.Pairwise fun j i => i.op.isPhi = true → j.op.isPhi = true) :
    (inl.hoist b instructions).Pairwise fun j i => i.op.isPhi = true → j.op.isPhi = true := by
  unfold hoist
  split
  next =>
    have hallocas : ∀ i ∈ inl.allocas, i.op.isPhi = false := fun i hi =>
      Operation.isPhi_of_isAlloca (inl.allocas_isAlloca i hi)
    have hdrop : ∀ i ∈ instructions.drop
        (instructions.findIdx fun i => !i.op.isPhi && !i.op.isAlloca), i.op.isPhi = false := by
      intro i hi
      obtain ⟨q, hq, rfl⟩ := List.mem_drop_iff_getElem.mp hi
      have hlt : (instructions.findIdx fun i => !i.op.isPhi && !i.op.isAlloca) <
          instructions.length := by omega
      have hplace := List.findIdx_getElem (w := hlt)
      simp only [Bool.and_eq_true, Bool.not_eq_true'] at hplace
      rcases Nat.eq_zero_or_pos q with rfl | hpos
      · simpa using hplace.1
      · by_contra hphi
        rw [Nat.add_comm] at hq
        have hfirst := List.pairwise_iff_getElem.mp h _ _ hlt hq (by omega) (by simpa using hphi)
        rw [hplace.1] at hfirst
        cases hfirst
    refine List.pairwise_append.mpr ⟨List.pairwise_append.mpr ⟨?_, ?_, ?_⟩, ?_, ?_⟩
    · exact h.sublist (List.take_sublist _ _)
    · exact List.pairwise_of_forall_mem_list fun _ _ i hi hphi => by simp [hallocas i hi] at hphi
    · exact fun _ _ i hi hphi => by simp [hallocas i hi] at hphi
    · exact h.sublist (List.drop_sublist _ _)
    · exact fun _ _ i hi hphi => by simp [hdrop i hi] at hphi
  next => exact h

/-- Phis stand at the heads of blocks after inlining. -/
theorem result_phisFirst (b : BlockId) :
    (inl.result.body b).Pairwise fun j i => i.op.isPhi = true → j.op.isPhi = true := by
  cases hblock : inl.result.block? b with
  | none => simp [Function.body, hblock]
  | some block =>
      rw [Function.body_eq hblock]
      rcases inl.result_cases hblock with ⟨old, hb, rfl⟩ | ⟨rfl, rfl⟩ | ⟨c, old, rfl, hc, rfl⟩
      · refine List.pairwise_map.mpr ?_
        simp only [Instruction.op_mapOperands, Operation.isPhi_mapOperands]
        apply inl.hoist_phisFirst
        refine List.pairwise_map.mpr ?_
        simp only [Instruction.op_mapIncoming, Operation.isPhi_mapIncoming]
        have hbody := body_phisFirst inl.shaped b
        unfold kept
        split
        next heq =>
          subst heq
          rw [body_block] at hbody
          exact hbody.sublist (List.sublist_append_left _ _)
        next =>
          rwa [← Function.body_eq hb]
      · refine List.pairwise_map.mpr ?_
        simp only [Instruction.op_mapOperands, Operation.isPhi_mapOperands]
        refine List.pairwise_append.mpr ⟨?_, ?_, ?_⟩
        · exact List.pairwise_of_forall_mem_list fun i hi _ _ _ => inl.merge_isPhi i hi
        · exact List.pairwise_of_forall_mem_list fun _ _ i hi hphi => by
            simp [inl.after_not_phi i hi] at hphi
        · exact fun i hi _ _ _ => inl.merge_isPhi i hi
      · refine List.pairwise_map.mpr ?_
        simp only [Instruction.op_mapOperands, Operation.isPhi_mapOperands]
        refine List.Pairwise.sublist (List.drop_sublist _ _) (List.pairwise_map.mpr ?_)
        have hbody := body_phisFirst inl.callee_shaped c
        rw [Function.body_eq hc] at hbody
        simpa [Renaming.instruction] using hbody

theorem moved_inj (ha : a < inl.cont) (hb : b < inl.cont) (h : inl.moved a = inl.moved b) :
    a = b := by
  unfold moved at h
  split at h <;> split at h
  next hablock hbblock => rw [hablock, hbblock]
  next => exact absurd h (Nat.ne_of_gt hb)
  next => exact absurd h (Nat.ne_of_lt ha)
  next => exact h

/-- Inlining keeps the shape of the body. -/
theorem result_shaped : inl.result.WellShaped where
  entry_lt := by
    have hlt : inl.caller.entry < inl.clone inl.callee.blocks.length :=
      Nat.lt_of_lt_of_le inl.entry_lt (inl.cont_le_clone _)
    rwa [← length_result] at hlt
  targets_lt a b h := inl.flow_lt (inl.mem_successors_result.mp h)
  entry_not_successor a h := by
    have hflow := inl.mem_successors_result.mp h
    obtain ⟨old, _, hold⟩ := (inl.flow_caller_iff inl.entry_lt).mp hflow
    exact inl.shaped.entry_not_successor old hold
  phis_first b := phisFirst_iff.mpr (inl.result_phisFirst b)
  sources_precede b i hi a ha := by
    rw [mem_successors_result]
    obtain ⟨block, hblock, hi⟩ := Function.block?_of_mem_body hi
    cases hop : i.op with
    | phi dest ty incoming =>
        rw [hop] at ha
        obtain ⟨entry, hentry, rfl⟩ := List.mem_map.mp ha
        rcases inl.result_cases hblock with ⟨old, hb, rfl⟩ | ⟨rfl, rfl⟩ | ⟨c, old, rfl, hc, rfl⟩
        · obtain ⟨j, entries, hj, hjop, rfl⟩ := inl.phi_caller hop hb hi
          obtain ⟨source, hsource, rfl⟩ := List.mem_map.mp hentry
          rw [inl.flow_caller_iff (List.getElem?_eq_some_iff.mp hb).1]
          refine ⟨source.2, rfl, inl.shaped.sources_precede b j hj _ ?_⟩
          rw [hjop]
          exact List.mem_map_of_mem hsource
        · obtain ⟨_, _, rfl⟩ := inl.phi_cont hop hi
          obtain ⟨⟨value, source⟩, hsource, rfl⟩ := List.mem_map.mp hentry
          obtain ⟨c, old, returned, hc, hret, _, rfl⟩ := inl.mem_returned.mp hsource
          exact .leave hc (by rw [hret]; rfl)
        · obtain ⟨j, d, entries, hj, hjop, rfl⟩ := inl.phi_clone hop hc hi
          obtain ⟨source, hsource, rfl⟩ := List.mem_map.mp hentry
          refine .callee (inl.callee_shaped.sources_precede c j hj _ ?_)
          rw [hjop]
          exact List.mem_map_of_mem hsource
    | _ => simp [hop, Operation.sources] at ha

end Monolith.Inlining

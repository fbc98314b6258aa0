import Mathlib.Data.List.TakeWhile
import Monolith.Proofs.Inlining.Flow
import Monolith.Proofs.Lists

/-! # Reads after inlining

Every read in the result comes from a read of the caller or of the callee, at a
place that it has become. A read of the caller stands before the call, where it
was, or behind it, in the block where control goes on; a read of the callee stands
in the copy of its block.
-/

namespace Monolith.SoundInlining

open Inlining

variable (inl : SoundInlining) {b : BlockId} {block : Block} {i : Instruction} {o : Operand}
  {before after : List Instruction} {x : ValueId}

/-! ## Definitions by block -/

theorem mem_defsOf_hoist {instructions : List Instruction} :
    x ∈ defsOf (inl.hoist b instructions) ↔
      x ∈ defsOf instructions ∨ b = inl.caller.entry ∧ x ∈ defsOf inl.allocas := by
  simp only [mem_defsOf, mem_hoist]
  constructor
  · rintro ⟨i, hi | ⟨hb, hi⟩, hx⟩
    · exact .inl ⟨i, hi, hx⟩
    · exact .inr ⟨hb, i, hi, hx⟩
  · rintro (⟨i, hi, hx⟩ | ⟨hb, i, hi, hx⟩)
    · exact ⟨i, .inl hi, hx⟩
    · exact ⟨i, .inr ⟨hb, hi⟩, hx⟩

theorem defsOf_body_of_kept (hb : inl.caller.block? b = some block)
    (hx : x ∈ defsOf (inl.kept b block)) : x ∈ defsOf (inl.result.body b) := by
  rw [inl.body_of_block? hb, defsOf_mapOperands, mem_defsOf_hoist, defsOf_mapIncoming]
  exact .inl hx

theorem defsOf_body_entry (hx : x ∈ defsOf inl.allocas) :
    x ∈ defsOf (inl.result.body inl.caller.entry) := by
  obtain ⟨entry, hentry⟩ := inl.exists_caller_entry
  rw [inl.body_of_block? hentry, defsOf_mapOperands, mem_defsOf_hoist]
  exact .inr ⟨rfl, hx⟩

theorem defsOf_body_cont :
    defsOf (inl.result.body inl.cont) = defsOf inl.merge ++ defsOf inl.after := by
  rw [body_cont, defsOf_mapOperands, defsOf_append]

theorem operands_of_isAlloca (h : i.op.isAlloca = true) : i.op.operands = [] := by
  cases hop : i.op with
  | alloca => rfl
  | _ => simp [hop, Operation.isAlloca] at h

/-! ## Where reads come from -/

/-- A place in the caller and the place in the result that it has become, each given by
the block and what was passed in it. -/
inductive At : BlockId → List Instruction → BlockId → List Instruction → Prop where
  | early {b : BlockId} {block : Block} {done done' : List Instruction}
      (hb : inl.caller.block? b = some block) (hkept : done ⊆ inl.kept b block)
      (hdefs : ∀ x ∈ defsOf done, x ∈ defsOf done') : At b done b done'
  | late {done done' : List Instruction} (hmerge : ∀ x ∈ defsOf inl.merge, x ∈ defsOf done')
      (hdefs : ∀ x ∈ defsOf done, x ∈ defsOf done') :
      At inl.block (inl.before ++ inl.call :: done) inl.cont done'

/-- What was passed in a block of the callee was passed in its copy, or was moved. -/
def Copies (done done' : List Instruction) : Prop :=
  ∀ x ∈ defsOf done, inl.names.dest x ∈ defsOf done' ∨ inl.names.dest x ∈ defsOf inl.allocas

/-- A read in the result is a read of the caller or one of the callee. -/
def Origin (b : BlockId) (done : List Instruction) (o : Operand) : Prop :=
  (∃ a passed old, inl.caller.Reads a passed old ∧ o = inl.subst old ∧ inl.At a passed b done) ∨
  ∃ c passed old, inl.callee.Reads c passed old ∧ o = inl.subst (inl.names.operand old) ∧
    b = inl.clone c ∧ inl.Copies passed done

theorem copies_of_map {passed front done : List Instruction}
    (h : passed.map inl.names.instruction = front ++ done)
    (hfront : ∀ i ∈ front, i ∈ inl.allocas) : inl.Copies passed done := by
  intro x hx
  have hmem : inl.names.dest x ∈ defsOf (passed.map inl.names.instruction) := by
    rw [Renaming.defsOf_copy]
    exact List.mem_map_of_mem hx
  rw [h, defsOf_append, List.mem_append] at hmem
  rcases hmem with hmem | hmem
  · obtain ⟨i, hi, hd⟩ := mem_defsOf.mp hmem
    exact .inr (mem_defsOf.mpr ⟨i, hfront i hi, hd⟩)
  · exact .inl hmem

theorem copies_body {c : BlockId} (hc : inl.callee.block? c = some block) :
    inl.Copies block.instructions (inl.result.body (inl.clone c)) := by
  obtain ⟨front, hsplit, hfront⟩ := inl.exists_copied hc
  intro x hx
  rw [inl.body_clone hc, defsOf_mapOperands]
  exact inl.copies_of_map hsplit hfront x hx

/-- The instructions before one that was not moved are still before it. -/
theorem hoist_split {instructions : List Instruction}
    (h : inl.hoist b instructions = before ++ i :: after) (hi : i.op.isAlloca = false) :
    ∃ front back, instructions = front ++ i :: back ∧ front ⊆ before := by
  unfold hoist at h
  split at h
  next =>
    have hnot : i ∉ inl.allocas := by
      intro hmem
      rw [inl.allocas_isAlloca i hmem] at hi
      cases hi
    dsimp only at h
    generalize instructions.findIdx _ = place at h
    rcases split_append h with ⟨rest, hfront, _⟩ | ⟨rest, rfl, hback⟩
    · rcases split_append hfront with ⟨more, hmore, _⟩ | ⟨more, _, hallocas⟩
      · refine ⟨before, more ++ instructions.drop place, ?_, List.Subset.refl _⟩
        rw [← List.cons_append, ← List.append_assoc, ← hmore, List.take_append_drop]
      · exact absurd (hallocas ▸ List.mem_append_right _ List.mem_cons_self) hnot
    · refine ⟨instructions.take place ++ rest, after, ?_, by simp⟩
      rw [List.append_assoc, ← hback, List.take_append_drop]
  next => exact ⟨before, after, h, List.Subset.refl _⟩

theorem kept_subset_body (hb : inl.caller.block? b = some block) {front back : List Instruction}
    (h : inl.kept b block = front ++ i :: back) :
    ∃ more, block.instructions = front ++ i :: more := by
  unfold kept at h
  split at h
  next heq =>
    subst heq
    obtain rfl := Option.some.inj (inl.block_eq.symm.trans hb)
    exact ⟨back ++ inl.call :: inl.after, by rw [inl.split, h]; simp⟩
  next => exact ⟨back, h⟩

theorem isAlloca_eq_false (h : o ∈ i.op.operands) : i.op.isAlloca = false := by
  by_contra halloca
  rw [operands_of_isAlloca (by simpa using halloca)] at h
  cases h

/-- An instruction of a block of the caller. -/
theorem origin_caller (hb : inl.caller.block? b = some block)
    (hsplit : (inl.callerBlock b block).instructions = before ++ i :: after)
    (hphi : i.op.isPhi = false) (hmem : o ∈ i.op.operands) : inl.Origin b before o := by
  obtain ⟨before₁, rest₁, h₁, rfl, hrest₁⟩ := List.map_eq_append_iff.mp hsplit
  obtain ⟨i₁, after₁, rfl, rfl, rfl⟩ := List.map_eq_cons_iff.mp hrest₁
  have hmem₁ : o ∈ i₁.op.operands.map inl.subst := by simpa using hmem
  obtain ⟨old, hold, rfl⟩ := List.mem_map.mp hmem₁
  obtain ⟨front, back, h₂, hsub⟩ := inl.hoist_split h₁ (isAlloca_eq_false hold)
  obtain ⟨front₂, rest₂, h₃, rfl, hrest₂⟩ := List.map_eq_append_iff.mp h₂
  obtain ⟨i₂, back₂, rfl, rfl, rfl⟩ := List.map_eq_cons_iff.mp hrest₂
  obtain ⟨more, hmore⟩ := inl.kept_subset_body hb h₃
  refine .inl ⟨b, front₂, old, .instruction hb hmore (by simpa using hphi) (by simpa using hold),
    rfl, .early hb (by simp [h₃]) fun x hx => ?_⟩
  rw [defsOf_mapOperands]
  apply Function.defsOf_subset hsub
  rwa [defsOf_mapIncoming]

/-- An instruction behind the call. -/
theorem origin_cont (hsplit : inl.contBlock.instructions = before ++ i :: after)
    (hphi : i.op.isPhi = false) (hmem : o ∈ i.op.operands) : inl.Origin inl.cont before o := by
  obtain ⟨before₁, rest₁, h₁, rfl, hrest₁⟩ := List.map_eq_append_iff.mp hsplit
  obtain ⟨i₁, after₁, rfl, rfl, rfl⟩ := List.map_eq_cons_iff.mp hrest₁
  have hmem₁ : o ∈ i₁.op.operands.map inl.subst := by simpa using hmem
  obtain ⟨old, hold, rfl⟩ := List.mem_map.mp hmem₁
  have hphi₁ : i₁.op.isPhi = false := by simpa using hphi
  change inl.merge ++ inl.after = _ at h₁
  have hnot : i₁ ∉ inl.merge := by
    intro hi
    rw [inl.merge_isPhi i₁ hi] at hphi₁
    cases hphi₁
  obtain ⟨passed, rfl, hafter⟩ := (split_append h₁).resolve_left fun ⟨_, hmerge, _⟩ =>
    hnot (hmerge ▸ List.mem_append_right _ List.mem_cons_self)
  have hbody : inl.head.instructions = (inl.before ++ inl.call :: passed) ++ i₁ :: after₁ := by
    rw [inl.split, hafter]
    simp
  refine .inl ⟨inl.block, _, old, .instruction inl.block_eq hbody hphi₁ hold, rfl, .late ?_ ?_⟩
  · intro x hx
    rw [defsOf_mapOperands, defsOf_append]
    exact List.mem_append_left _ hx
  · intro x hx
    rw [defsOf_mapOperands, defsOf_append]
    exact List.mem_append_right _ hx

/-- An instruction of a copy. -/
theorem origin_clone {c : BlockId} (hc : inl.callee.block? c = some block)
    (hsplit : (inl.calleeBlock c block).instructions = before ++ i :: after)
    (hphi : i.op.isPhi = false) (hmem : o ∈ i.op.operands) : inl.Origin (inl.clone c) before o := by
  obtain ⟨before₁, rest₁, h₁, rfl, hrest₁⟩ := List.map_eq_append_iff.mp hsplit
  obtain ⟨i₁, after₁, rfl, rfl, rfl⟩ := List.map_eq_cons_iff.mp hrest₁
  obtain ⟨front, hcopied, hfront⟩ := inl.exists_copied hc
  change inl.copied c block = _ at h₁
  rw [h₁, ← List.append_assoc] at hcopied
  obtain ⟨passed, rest₂, h₂, hpassed, hrest₂⟩ := List.map_eq_append_iff.mp hcopied
  obtain ⟨i₂, after₂, rfl, rfl, rfl⟩ := List.map_eq_cons_iff.mp hrest₂
  have hmem₂ : o ∈ (i₂.op.operands.map inl.names.operand).map inl.subst := by
    simpa [Renaming.instruction] using hmem
  obtain ⟨_, hrenamed, rfl⟩ := List.mem_map.mp hmem₂
  obtain ⟨old, hold, rfl⟩ := List.mem_map.mp hrenamed
  refine .inr ⟨c, passed, old, .instruction hc h₂ (by simpa [Renaming.instruction] using hphi) hold,
    rfl, rfl, fun x hx => ?_⟩
  rw [defsOf_mapOperands]
  exact inl.copies_of_map hpassed hfront x hx

theorem at_body (hb : inl.caller.block? b = some block) :
    inl.At b (inl.caller.body b) (inl.moved b) (inl.result.body (inl.moved b)) := by
  rcases eq_or_ne b inl.block with rfl | hne
  · rw [moved, if_pos rfl, body_block]
    refine .late ?_ ?_
    · rw [defsOf_body_cont]
      exact fun x hx => List.mem_append_left _ hx
    · rw [defsOf_body_cont]
      exact fun x hx => List.mem_append_right _ hx
  · rw [moved, if_neg hne, Function.body_eq hb]
    have hkept : inl.kept b block = block.instructions := if_neg hne
    refine .early hb ?_ fun x hx => inl.defsOf_body_of_kept hb ?_
    · rw [hkept]
      exact List.Subset.refl _
    · rwa [hkept]

/-- The end of a block. -/
theorem origin_terminator (hblock : inl.result.block? b = some block)
    (hmem : o ∈ block.terminator.operands) : inl.Origin b block.instructions o := by
  rw [← Function.body_eq hblock]
  rcases inl.result_cases hblock with ⟨old, hb, rfl⟩ | ⟨rfl, rfl⟩ | ⟨c, old, rfl, hc, rfl⟩
  · rcases eq_or_ne b inl.block with rfl | hne
    · have hexit : inl.exit inl.block old = .jump (inl.clone inl.callee.entry) := if_pos rfl
      rw [callerBlock, Block.terminator_mapOperands, hexit] at hmem
      cases hmem
    · have hat := inl.at_body hb
      rw [moved, if_neg hne, Function.body_eq hb] at hat
      have hmem₁ : o ∈ old.terminator.operands.map inl.subst := by
        simpa [callerBlock, exit, hne] using hmem
      obtain ⟨value, hvalue, rfl⟩ := List.mem_map.mp hmem₁
      exact .inl ⟨b, _, value, .terminator hb hvalue, rfl, hat⟩
  · have hat := inl.at_body inl.block_eq
    rw [moved, if_pos rfl, Function.body_eq inl.block_eq] at hat
    have hmem₁ : o ∈ inl.head.terminator.operands.map inl.subst := by
      simpa [contBlock, tail] using hmem
    obtain ⟨value, hvalue, rfl⟩ := List.mem_map.mp hmem₁
    exact .inl ⟨inl.block, _, value, .terminator inl.block_eq hvalue, rfl, hat⟩
  · have hmem₁ : o ∈ (old.terminator.operands.map inl.names.operand).map inl.subst := by
      rw [calleeBlock, Block.terminator_mapOperands, Terminator.operands_mapOperands] at hmem
      change o ∈ (inl.names.terminator inl.cont old.terminator).operands.map inl.subst at hmem
      cases hterm : old.terminator with
      | ret value =>
          rw [hterm] at hmem
          cases hmem
      | _ =>
          rw [hterm] at hmem
          exact hmem
    obtain ⟨_, hrenamed, rfl⟩ := List.mem_map.mp hmem₁
    obtain ⟨value, hvalue, rfl⟩ := List.mem_map.mp hrenamed
    exact .inr ⟨c, _, value, .terminator hc hvalue, rfl, rfl, inl.copies_body hc⟩

/-- A phi that is read when control comes from one of the blocks that it lists. -/
theorem origin_phi {source : BlockId} {dest : ValueId} {ty : Ty}
    {incoming : List (Operand × BlockId)} (hblock : inl.result.block? b = some block)
    (hi : i ∈ block.instructions) (hop : i.op = .phi dest ty incoming)
    (hmem : (o, source) ∈ incoming) : inl.Origin source (inl.result.body source) o := by
  rcases inl.result_cases hblock with ⟨old, hb, rfl⟩ | ⟨rfl, rfl⟩ | ⟨c, old, rfl, hc, rfl⟩
  · obtain ⟨j, entries, hj, hjop, rfl⟩ := inl.phi_caller hop hb hi
    obtain ⟨⟨value, a⟩, hentry, heq⟩ := List.mem_map.mp hmem
    obtain ⟨rfl, rfl⟩ := Prod.mk.inj heq
    have hsource := (inl.wellFormed.phi_sources b j hj dest ty entries hjop a).mp
      (List.mem_map_of_mem hentry)
    obtain ⟨_, ha, _⟩ := Function.mem_successors.mp hsource
    rw [Function.body_eq hb] at hj
    exact .inl ⟨a, _, value, .phi hb hj hjop hentry, rfl, inl.at_body ha⟩
  · obtain ⟨_, _, rfl⟩ := inl.phi_cont hop hi
    obtain ⟨⟨value, a⟩, hentry, heq⟩ := List.mem_map.mp hmem
    obtain ⟨rfl, rfl⟩ := Prod.mk.inj heq
    obtain ⟨c, old, returned, hc, hret, rfl, rfl⟩ := inl.mem_returned.mp hentry
    refine .inr ⟨c, _, returned, .terminator hc ?_, rfl, rfl, inl.copies_body hc⟩
    rw [hret]
    exact List.mem_singleton_self _
  · obtain ⟨j, d, entries, hj, hjop, rfl⟩ := inl.phi_clone hop hc hi
    obtain ⟨⟨value, a⟩, hentry, heq⟩ := List.mem_map.mp hmem
    obtain ⟨rfl, rfl⟩ := Prod.mk.inj heq
    have hsource := (inl.callee_wellFormed.phi_sources c j hj d ty entries hjop a).mp
      (List.mem_map_of_mem hentry)
    obtain ⟨block, ha, _⟩ := Function.mem_successors.mp hsource
    rw [Function.body_eq hc] at hj
    have hcopies := inl.copies_body ha
    rw [← Function.body_eq ha] at hcopies
    exact .inr ⟨a, _, value, .phi hc hj hjop hentry, rfl, rfl, hcopies⟩

theorem origin_of_reads {done : List Instruction} (h : inl.result.Reads b done o) :
    inl.Origin b done o := by
  cases h with
  | @instruction b block before after i o hblock hsplit hphi hmem =>
      rcases inl.result_cases hblock with ⟨old, hb, rfl⟩ | ⟨rfl, rfl⟩ | ⟨c, old, rfl, hc, rfl⟩
      · exact inl.origin_caller hb hsplit hphi hmem
      · exact inl.origin_cont hsplit hphi hmem
      · exact inl.origin_clone hc hsplit hphi hmem
  | terminator hblock hmem => exact inl.origin_terminator hblock hmem
  | phi hblock hi hop hmem => exact inl.origin_phi hblock hi hop hmem

end Monolith.SoundInlining

import Monolith.Proofs.Inlining.Body
import Monolith.Proofs.Inlining.Calls

/-! # Allocas of an inlined body

Where the allocas of a body stand at the head of its entry, inlining a call moves the allocas of
the callee there as well: they come behind those that are there already, and the code that is
split or copied has none.
-/

namespace Monolith

variable {b : BlockId} {i : Instruction} {before after : List Instruction} {block : Block}

/-! ## Allocas in code -/

/-- How the allocas stand in the code of a block. There are none, or the code starts with the
ones that are given and goes on without allocas and phis. -/
inductive Opens : Option (List Instruction) → List Instruction → Prop where
  | plain {code : List Instruction} (hcode : ∀ i ∈ code, i.op.isAlloca = false) : Opens none code
  | frame {allocas rest : List Instruction} (hallocas : ∀ i ∈ allocas, i.op.isAlloca = true)
      (hrest : ∀ i ∈ rest, i.op.isAlloca = false ∧ i.op.isPhi = false) :
      Opens (some allocas) (allocas ++ rest)

namespace Opens

variable {opening : Option (List Instruction)} {code allocas : List Instruction}

/-- Instructions are changed one by one, and allocas and phis stay what they are. -/
theorem map (h : Opens opening code) {change : Instruction → Instruction}
    (halloca : ∀ i, (change i).op.isAlloca = i.op.isAlloca)
    (hphi : ∀ i, (change i).op.isPhi = i.op.isPhi) :
    Opens (opening.map (List.map change)) (code.map change) := by
  cases h with
  | plain hcode =>
      apply plain
      rw [List.forall_mem_map]
      simpa only [halloca] using hcode
  | frame hallocas hrest =>
      rw [List.map_append]
      apply frame
      · rw [List.forall_mem_map]
        simpa only [halloca] using hallocas
      · rw [List.forall_mem_map]
        simpa only [halloca, hphi] using hrest

/-- Allocas that do not change are the same ones. -/
theorem map_of_keeps (h : Opens opening code) {change : Instruction → Instruction}
    (halloca : ∀ i, (change i).op.isAlloca = i.op.isAlloca)
    (hphi : ∀ i, (change i).op.isPhi = i.op.isPhi)
    (hkeeps : ∀ i, i.op.isAlloca = true → change i = i) : Opens opening (code.map change) := by
  have hsame : opening.map (List.map change) = opening := by
    cases h with
    | plain => rfl
    | frame hallocas =>
        rw [Option.map_some, List.map_congr_left fun i hi => hkeeps i (hallocas i hi), List.map_id']
  rw [← hsame]
  exact h.map halloca hphi

theorem mapOperands (h : Opens opening code) (change : Operand → Operand) :
    Opens opening (code.map (·.mapOperands change)) := by
  refine h.map_of_keeps (by simp) (by simp) fun i hi => ?_
  obtain ⟨op, comment⟩ := i
  cases op with
  | alloca => rfl
  | _ => cases hi

theorem mapIncoming (h : Opens opening code) (rename : BlockId → BlockId) :
    Opens opening (code.map (·.mapIncoming rename)) :=
  h.map_of_keeps (by simp) (by simp) fun _ hi =>
    Instruction.mapIncoming_of_not_phi (Operation.isPhi_of_isAlloca hi) rename

theorem copy (h : Opens opening code) (names : Renaming) :
    Opens (opening.map (List.map names.instruction)) (code.map names.instruction) :=
  h.map (by simp [Renaming.instruction]) (by simp [Renaming.instruction])

/-- All allocas stand before an instruction that is none. -/
theorem split (h : Opens opening (before ++ i :: after)) (hi : i.op.isAlloca = false) :
    Opens opening before ∧ Opens none after := by
  generalize hcode : before ++ i :: after = code at h
  cases h with
  | plain hplain =>
      subst hcode
      rw [List.forall_mem_append, List.forall_mem_cons] at hplain
      exact ⟨plain hplain.1, plain hplain.2.2⟩
  | @frame allocas rest hallocas hrest =>
      -- the instruction is no alloca, so the run of allocas ends before it
      have hbehind : ∃ middle, before = allocas ++ middle ∧ rest = middle ++ i :: after := by
        rcases List.append_eq_append_iff.mp hcode.symm with hbehind | ⟨ends, hends, hafter⟩
        · exact hbehind
        · cases ends with
          | nil => exact ⟨[], by simpa using hends.symm, by simpa using hafter.symm⟩
          | cons j ends =>
              obtain ⟨rfl, _⟩ := List.cons.inj hafter
              have hj := hallocas i (by simp [hends])
              rw [hi] at hj
              cases hj
      obtain ⟨middle, rfl, rfl⟩ := hbehind
      rw [List.forall_mem_append, List.forall_mem_cons] at hrest
      exact ⟨frame hallocas hrest.1, plain fun j hj => (hrest.2.2 j hj).1⟩

theorem not_isAlloca (h : Opens none code) : ∀ i ∈ code, i.op.isAlloca = false := by
  cases h with
  | plain hcode => exact hcode

theorem lt_length (h : Opens (some allocas) code) {index : Nat} (hi : code[index]? = some i)
    (halloca : i.op.isAlloca = true) : index < allocas.length := by
  cases h with
  | frame _ hrest =>
      by_contra hle
      rw [List.getElem?_append_right (Nat.le_of_not_lt hle)] at hi
      rw [(hrest i (List.mem_of_getElem? hi)).1] at halloca
      cases halloca

theorem isAlloca (h : Opens (some allocas) code) : ∀ i ∈ allocas, i.op.isAlloca = true := by
  cases h with
  | frame hallocas => exact hallocas

theorem takeWhile_eq (h : Opens (some allocas) code) :
    code.takeWhile (·.op.isAlloca) = allocas := by
  cases h with
  | @frame _ rest hallocas hrest =>
      rw [List.takeWhile_append_of_pos hallocas]
      cases rest with
      | nil => exact List.append_nil _
      | cons i rest =>
          rw [List.takeWhile_cons_of_neg (by simp [(hrest i List.mem_cons_self).1]),
            List.append_nil]

theorem filter_eq (h : Opens opening code) :
    code.filter (·.op.isAlloca) = opening.getD [] := by
  cases h with
  | plain hcode => simpa using hcode
  | frame hallocas hrest =>
      rw [List.filter_append, List.filter_eq_self.mpr hallocas,
        List.filter_eq_nil_iff.mpr fun i hi => by simp [(hrest i hi).1], List.append_nil]
      rfl

/-- What is left when the allocas are taken away. -/
theorem drop (h : Opens (some allocas) code) : Opens none (code.drop allocas.length) := by
  cases h with
  | frame _ hrest =>
      rw [List.drop_left]
      exact plain fun i hi => (hrest i hi).1

/-- Further allocas are put behind those with which the code starts. -/
theorem insert (h : Opens (some allocas) code) {more : List Instruction}
    (hmore : ∀ i ∈ more, i.op.isAlloca = true) :
    Opens (some (allocas ++ more))
      (code.take (code.findIdx fun i => !i.op.isPhi && !i.op.isAlloca) ++ more ++
        code.drop (code.findIdx fun i => !i.op.isPhi && !i.op.isAlloca)) := by
  cases h with
  | @frame _ rest hallocas hrest =>
      have hplace : (allocas ++ rest).findIdx (fun i => !i.op.isPhi && !i.op.isAlloca) =
          allocas.length := by
        have hlead : allocas.findIdx (fun i => !i.op.isPhi && !i.op.isAlloca) = allocas.length := by
          rw [List.findIdx_eq_length]
          intro i hi
          simp [hallocas i hi]
        rw [List.findIdx_append, hlead, if_neg (Nat.lt_irrefl _)]
        cases rest with
        | nil => simp
        | cons i rest =>
            have hi := hrest i List.mem_cons_self
            simp [List.findIdx_cons, hi.1, hi.2]
      rw [hplace, List.take_left, List.drop_left]
      apply frame _ hrest
      rw [List.forall_mem_append]
      exact ⟨hallocas, hmore⟩

theorem cons (h : Opens none code) (hi : i.op.isAlloca = false) : Opens none (i :: code) := by
  cases h with
  | plain hcode => exact plain (List.forall_mem_cons.mpr ⟨hi, hcode⟩)

end Opens

namespace Function

variable {f g : Function} {opening opening' : BlockId → Option (List Instruction)}

theorem block?_of_block (h : f.block b = .ok block) : f.block? b = some block := by
  cases hblock : f.block? b with
  | none =>
      have hget : f.blocks[b]? = none := hblock
      simp [Function.block, entryAt, hget] at h
  | some other => rw [Except.ok.inj ((block_eq_ok hblock).symm.trans h)]

/-! ## Allocas in blocks -/

def Lays (f : Function) (opening : BlockId → Option (List Instruction)) : Prop :=
  ∀ b block, f.block? b = some block → Opens (opening b) block.instructions

namespace Lays

theorem mapBlock {change : Block → Block} (h : f.Lays opening)
    (hother : ∀ a, a ≠ b → opening' a = opening a)
    (hchange : ∀ block, Opens (opening b) block.instructions → f.block? b = some block →
      Opens (opening' b) (change block).instructions) : (f.mapBlock b change).Lays opening' := by
  intro a block' hblock'
  change (f.blocks.modify b change)[a]? = some block' at hblock'
  rw [List.getElem?_modify] at hblock'
  obtain ⟨block, hblock, rfl⟩ := Option.map_eq_some_iff.mp hblock'
  by_cases hab : b = a
  · subst hab
    rw [if_pos rfl]
    exact hchange block (h b block hblock) hblock
  · rw [if_neg hab, hother a (Ne.symm hab)]
    exact h a block hblock

theorem mapOperands (h : f.Lays opening) (change : Operand → Operand) :
    (f.mapOperands change).Lays opening := by
  intro b block' hblock'
  change (f.blocks.map _)[b]? = some block' at hblock'
  rw [List.getElem?_map] at hblock'
  obtain ⟨block, hblock, rfl⟩ := Option.map_eq_some_iff.mp hblock'
  exact (h b block hblock).mapOperands change

/-- Blocks are added behind the others. -/
theorem append (h : f.Lays opening) {blocks : List Block} (values : List ValueInfo)
    (hold : ∀ b < f.blocks.length, opening' b = opening b)
    (hnew : ∀ c block, blocks[c]? = some block →
      Opens (opening' (f.blocks.length + c)) block.instructions) :
    Lays { f with values, blocks := f.blocks ++ blocks } opening' := by
  intro b block hblock
  change (f.blocks ++ blocks)[b]? = some block at hblock
  by_cases hb : b < f.blocks.length
  · rw [List.getElem?_append_left hb] at hblock
    rw [hold b hb]
    exact h b block hblock
  · rw [List.getElem?_append_right (Nat.le_of_not_lt hb)] at hblock
    rw [← Nat.add_sub_of_le (Nat.le_of_not_lt hb)]
    exact hnew _ block hblock

theorem splitAt {name : String} (h : f.Lays opening) (hblock : f.block? b = some block)
    (hcode : block.instructions = before ++ i :: after) (hi : i.op.isAlloca = false)
    (hfresh : opening f.blocks.length = none) (hsplit : f.splitAt b before.length name = .ok g) :
    g.Lays opening := by
  obtain ⟨head, hhead, hsplit⟩ := bind_eq_ok.mp hsplit
  obtain rfl := Except.ok.inj hsplit
  obtain rfl : block = head := Option.some.inj (hblock.symm.trans (block?_of_block hhead))
  have hhalves := h b block hblock
  rw [hcode] at hhalves
  obtain ⟨hbefore, hafter⟩ := hhalves.split hi
  apply List.foldlRecOn (motive := fun g : Function => g.Lays opening)
  · have hcut : (f.mapBlock b fun head =>
        { head with
          instructions := head.instructions.take before.length
          terminator := .unreachable }).Lays opening := by
      apply h.mapBlock fun _ _ => rfl
      intro head _ hhead
      obtain rfl := Option.some.inj (hblock.symm.trans hhead)
      simpa only [hcode, List.take_left] using hbefore
    apply hcut.append f.values fun _ _ => rfl
    intro c tail htail
    cases c with
    | zero =>
        obtain rfl := Option.some.inj htail
        rw [length_mapBlock, Nat.add_zero, hfresh]
        simpa [hcode] using hafter
    | succ => cases htail
  -- in the blocks that follow only phis change
  · intro edited hedited target _
    apply hedited.mapBlock fun _ _ => rfl
    exact fun other hother _ => hother.mapIncoming _

/-- The allocas at the head of a block are moved behind those of the entry. -/
theorem hoistAllocas {start : BlockId} {allocas inner : List Instruction} (h : f.Lays opening)
    (hstart : opening start = some inner) (hentry : opening f.entry = some allocas)
    (hne : start ≠ f.entry) (hhoist : f.hoistAllocas start = .ok g) :
    g.Lays fun b =>
      if b = f.entry then some (allocas ++ inner) else if b = start then none else opening b := by
  obtain ⟨source, hsource, hhoist⟩ := bind_eq_ok.mp hhoist
  obtain ⟨entry, hblock, hhoist⟩ := bind_eq_ok.mp hhoist
  obtain rfl := Except.ok.inj hhoist
  have hsource := block?_of_block hsource
  have hblock := block?_of_block hblock
  have hinner := h start source hsource
  rw [hstart] at hinner
  have htaken := hinner.takeWhile_eq
  rw [htaken] at hblock ⊢
  have hdropped : (f.mapBlock start (·.mapInstructions (·.drop inner.length))).Lays fun b =>
      if b = start then none else opening b := by
    apply h.mapBlock fun b hb => if_neg hb
    intro block hopens _
    rw [if_pos rfl]
    rw [hstart] at hopens
    exact hopens.drop
  apply hdropped.mapBlock fun b hb => if_neg hb
  intro block hopens hfound
  obtain rfl := Option.some.inj (hblock.symm.trans hfound)
  change Opens (if f.entry = start then none else opening f.entry) _ at hopens
  change Opens (if f.entry = f.entry then _ else _) _
  rw [if_neg hne.symm, hentry] at hopens
  rw [if_pos rfl]
  exact hopens.insert hinner.isAlloca

theorem setTerminator {terminator : Terminator} (h : f.Lays opening)
    (hset : f.setTerminator b terminator = .ok g) : g.Lays opening := by
  obtain ⟨_, _, hset⟩ := bind_eq_ok.mp hset
  obtain rfl := Except.ok.inj hset
  apply h.mapBlock fun _ _ => rfl
  exact fun _ hopens _ => hopens

theorem bindResult (h : f.Lays opening) (hplain : opening b = none) (site : CallSite)
    (returned : List (Operand × BlockId)) : (f.bindResult site b returned).Lays opening := by
  unfold Function.bindResult
  split
  next => exact h
  next => exact h.mapOperands _
  next => exact h.mapOperands _
  next =>
    apply h.mapBlock fun _ _ => rfl
    intro block hopens _
    rw [hplain] at hopens ⊢
    exact hopens.cons rfl

end Lays

/-! ## One call -/

theorem entry_splitAt {index : Nat} {name : String} (h : f.splitAt b index name = .ok g) :
    g.entry = f.entry := by
  obtain ⟨_, _, h⟩ := bind_eq_ok.mp h
  obtain rfl := Except.ok.inj h
  apply List.foldlRecOn (motive := fun g : Function => g.entry = f.entry)
  · rfl
  · exact fun _ hedited _ _ => hedited

theorem entry_hoistAllocas (h : f.hoistAllocas b = .ok g) : g.entry = f.entry := by
  obtain ⟨_, _, h⟩ := bind_eq_ok.mp h
  obtain ⟨_, _, h⟩ := bind_eq_ok.mp h
  obtain rfl := Except.ok.inj h
  rfl

theorem entry_setTerminator {terminator : Terminator} (h : f.setTerminator b terminator = .ok g) :
    g.entry = f.entry := by
  obtain ⟨_, _, h⟩ := bind_eq_ok.mp h
  obtain rfl := Except.ok.inj h
  rfl

/-- The entry opens with the allocas, and other blocks have none. -/
def entryOpening (entry : BlockId) (allocas : List Instruction) (b : BlockId) :
    Option (List Instruction) :=
  if b = entry then some allocas else none

theorem entryOpening_self (entry : BlockId) (allocas : List Instruction) :
    entryOpening entry allocas entry = some allocas := if_pos rfl

theorem entryOpening_of_ne {entry : BlockId} (h : b ≠ entry) (allocas : List Instruction) :
    entryOpening entry allocas b = none := if_neg h

/-- The body starts with the given allocas, and has no others. -/
def Frames (f : Function) (allocas : List Instruction) : Prop :=
  f.Lays (entryOpening f.entry allocas)

namespace Frames

variable {site : CallSite} {allocas inner : List Instruction}

/-- The copies of the blocks of a callee are put behind the blocks of a caller. -/
theorem copies (hf : f.Frames allocas) (hcallee : g.Frames inner) (values : List ValueInfo)
    (names : Renaming) (continuation : BlockId) (hentry : f.entry < f.blocks.length) :
    Lays { f with values, blocks := f.blocks ++ g.copyBlocks names continuation } fun b =>
      if b = f.blocks.length + g.entry then some (inner.map names.instruction)
      else entryOpening f.entry allocas b := by
  apply Lays.append hf values
  · exact fun b hb => if_neg (Nat.ne_of_lt (Nat.lt_add_right g.entry hb))
  · intro c block hblock
    rw [copyBlocks, List.getElem?_map, List.getElem?_zipIdx, Option.map_map] at hblock
    obtain ⟨source, hsource, rfl⟩ := Option.map_eq_some_iff.mp hblock
    have hcopy := (hcallee c source hsource).copy names
    by_cases hc : c = g.entry
    · rw [if_pos (congrArg _ hc)]
      rw [hc, entryOpening_self] at hcopy
      exact hcopy
    · rw [if_neg fun heq => hc (Nat.add_left_cancel heq),
        entryOpening_of_ne (Nat.ne_of_gt (Nat.lt_add_right c hentry))]
      rw [entryOpening_of_ne hc] at hcopy
      exact hcopy

/-- The allocas of the copies are moved to the entry of the caller. -/
theorem hoistCopies {hoisted : Function} (hf : f.Frames allocas) (hcallee : g.Frames inner)
    {values : List ValueInfo} {names : Renaming} {continuation : BlockId}
    (hentry : f.entry < f.blocks.length)
    (h : Function.hoistAllocas
      { f with values, blocks := f.blocks ++ g.copyBlocks names continuation }
        (f.blocks.length + g.entry) = .ok hoisted) :
    hoisted.Frames (allocas ++ inner.map names.instruction) := by
  have hne : f.blocks.length + g.entry ≠ f.entry := Nat.ne_of_gt (Nat.lt_add_right _ hentry)
  have hcopies := hf.copies hcallee values names continuation hentry
  have hlays := hcopies.hoistAllocas (if_pos rfl)
    ((if_neg hne.symm).trans (entryOpening_self _ _)) hne h
  rw [Frames, entry_hoistAllocas h]
  intro b block hblock
  have hopens := hlays b block hblock
  dsimp only at hopens ⊢
  by_cases hb : b = f.entry
  · rw [if_pos hb] at hopens
    rw [hb, entryOpening_self]
    exact hopens
  · rw [if_neg hb] at hopens
    rw [entryOpening_of_ne hb]
    by_cases hstart : b = f.blocks.length + g.entry
    · rwa [if_pos hstart] at hopens
    · rwa [if_neg hstart, if_neg hstart, entryOpening_of_ne hb] at hopens

/-- Where a call is inlined, the copies of the callee's allocas come behind the caller's. -/
theorem inlineBody (hf : f.Frames allocas) (hcallee : site.callee.Frames inner)
    (hentry : f.entry < f.blocks.length)
    (hcalleeEntry : site.callee.entry < site.callee.blocks.length)
    (hblock : f.block? b = some block) (hcode : block.instructions = before ++ i :: after)
    (hi : i.op.isAlloca = false) (h : f.inlineBody site b before.length = .ok g) :
    g.entry = f.entry ∧ g.Frames (allocas ++ inner.map (site.renaming f).instruction) := by
  obtain ⟨split, hoisted, joined, hsplit, hhoisted, hjoined, rfl⟩ := inlineBody_steps h
  obtain ⟨_, hlength⟩ := length_splitAt hsplit
  have hcont : f.blocks.length ≠ f.entry := (Nat.ne_of_lt hentry).symm
  have hsplitEntry := entry_splitAt hsplit
  have hsplitFrames : split.Frames allocas := by
    rw [Frames, hsplitEntry]
    exact Lays.splitAt hf hblock hcode hi (entryOpening_of_ne hcont _) hsplit
  have hstart : (site.renaming f).block site.callee.entry =
      split.blocks.length + site.callee.entry := by
    rw [hlength]
    exact if_pos hcalleeEntry
  rw [hstart] at hhoisted
  have hsplitLt : split.entry < split.blocks.length := by
    rw [hsplitEntry, hlength]
    exact Nat.lt_succ_of_lt hentry
  have hhoistedFrames := hsplitFrames.hoistCopies hcallee hsplitLt hhoisted
  have hjoinedEntry : joined.entry = f.entry :=
    (entry_setTerminator hjoined).trans ((entry_hoistAllocas hhoisted).trans hsplitEntry)
  have hresultEntry := (keeps_bindResult joined site f.blocks.length
    (site.callee.returns (site.renaming f))).2.trans hjoinedEntry
  refine ⟨hresultEntry, ?_⟩
  have hjoinedLays := Lays.setTerminator hhoistedFrames hjoined
  rw [(entry_hoistAllocas hhoisted).trans hsplitEntry] at hjoinedLays
  have hresultLays := hjoinedLays.bindResult (b := f.blocks.length) (entryOpening_of_ne hcont _)
    site (site.callee.returns (site.renaming f))
  rw [← hresultEntry] at hresultLays
  exact hresultLays

end Frames

end Function

end Monolith

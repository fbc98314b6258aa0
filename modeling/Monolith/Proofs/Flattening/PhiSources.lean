import Monolith.Proofs.Flattening.ExtendedFunctions
import Monolith.Proofs.Flattening.FailingPasses
import Monolith.Proofs.Inlining.Body
import Monolith.Proofs.Inlining.Calls

/-! # Phis list blocks of their body

The blocks that phis list are renamed where a call is inlined, and every other pass leaves them
as they are. So in all that flattening makes of a verified module, phis list blocks of the body
that they stand in, and there is a block for the code that computes an operand of a phi.
-/

namespace Monolith

variable {code : List Instruction} {index : Nat}

def sourcesOf (code : List Instruction) : List BlockId := code.flatMap (·.op.sources)

theorem sourcesOf_append (code more : List Instruction) :
    sourcesOf (code ++ more) = sourcesOf code ++ sourcesOf more :=
  List.flatMap_append

theorem sourcesOf_subset {more : List Instruction} (h : code ⊆ more) :
    sourcesOf code ⊆ sourcesOf more := by
  intro b hb
  obtain ⟨i, hi, hb⟩ := List.mem_flatMap.mp hb
  exact List.mem_flatMap.mpr ⟨i, h hi, hb⟩

theorem sourcesOf_of_not_phi (h : ∀ i ∈ code, i.op.isPhi = false) : sourcesOf code = [] :=
  List.flatMap_eq_nil_iff.mpr fun i hi => Operation.sources_of_not_phi (h i hi)

theorem sourcesOf_mapOperands (change : Operand → Operand) (code : List Instruction) :
    sourcesOf (code.map (·.mapOperands change)) = sourcesOf code := by
  simp only [sourcesOf, List.flatMap_map, Instruction.op_mapOperands, Operation.sources_mapOperands]

theorem sourcesOf_mapIncoming (rename : BlockId → BlockId) (code : List Instruction) :
    sourcesOf (code.map (·.mapIncoming rename)) = (sourcesOf code).map rename := by
  simp only [sourcesOf, List.flatMap_map, List.map_flatMap, Instruction.op_mapIncoming,
    Operation.sources_mapIncoming]

namespace Function

variable {f g : Function} {b : BlockId}

def sources (f : Function) : List BlockId :=
  f.blocks.flatMap fun block => sourcesOf block.instructions

/-- Control stays among the blocks of the body, and phis list no others. -/
structure Enclosed (f : Function) : Prop extends f.Closed where
  sources_lt : ∀ b ∈ f.sources, b < f.exits.length

/-- In a well-formed body, phis list blocks of the body. -/
theorem WellFormed.enclosed (h : f.WellFormed) : f.Enclosed where
  toClosed := h.closed
  sources_lt a ha := by
    obtain ⟨block, hblock, ha⟩ := List.mem_flatMap.mp ha
    obtain ⟨i, hi, ha⟩ := List.mem_flatMap.mp ha
    obtain ⟨b, hb⟩ := List.getElem?_of_mem hblock
    have hbody : i ∈ f.body b := by rwa [body_eq hb]
    rw [length_exits]
    exact h.wellShaped.lt_of_listed hbody ha

/-! ## Changes in place -/

theorem sources_mapOperands (f : Function) (change : Operand → Operand) :
    (f.mapOperands change).sources = f.sources := by
  simp only [sources, mapOperands, List.flatMap_map]
  exact List.flatMap_congr fun block _ => sourcesOf_mapOperands change block.instructions

/-- Changing a block adds the sources that are added to the block. -/
theorem sources_mapBlock {change : Block → Block} {more : List BlockId}
    (h : ∀ block, sourcesOf (change block).instructions ⊆ sourcesOf block.instructions ++ more) :
    (f.mapBlock b change).sources ⊆ f.sources ++ more := by
  intro s hs
  obtain ⟨block, hblock, hs⟩ := List.mem_flatMap.mp hs
  obtain ⟨old, hmem, hold⟩ := mem_blocks_mapBlock hblock
  have hold : s ∈ sourcesOf old.instructions ++ more := by
    rcases hold with rfl | rfl
    · exact List.mem_append_left _ hs
    · exact h old hs
  exact (List.mem_append.mp hold).elim
    (fun hs => List.mem_append_left _ (List.mem_flatMap.mpr ⟨old, hmem, hs⟩))
    (List.mem_append_right _)

/-- Changing a block adds no sources if it adds none in that block. -/
theorem sources_mapBlock_of_subset {change : Block → Block}
    (h : ∀ block, sourcesOf (change block).instructions ⊆ sourcesOf block.instructions) :
    (f.mapBlock b change).sources ⊆ f.sources := by
  have hmore := @sources_mapBlock f b change [] fun block => by
    rw [List.append_nil]
    exact h block
  rwa [List.append_nil] at hmore

/-! ## Inlining a call -/

theorem sourcesOf_subset_sources {block : Block} (h : block ∈ f.blocks) :
    sourcesOf block.instructions ⊆ f.sources :=
  fun _ hs => List.mem_flatMap.mpr ⟨block, h, hs⟩

/-- Phis behind a split list the block that was split off. -/
theorem sources_splitAt {name : String} (h : f.splitAt b index name = .ok g) :
    g.sources ⊆ f.sources ++ [f.blocks.length] := by
  obtain ⟨head, hhead, h⟩ := bind_eq_ok.mp h
  obtain rfl := Except.ok.inj h
  apply List.foldlRecOn (motive := fun g : Function => g.sources ⊆ f.sources ++ [f.blocks.length])
  · intro s hs
    apply List.mem_append_left
    rw [sources, List.flatMap_append, List.flatMap_singleton] at hs
    rcases List.mem_append.mp hs with hs | hs
    · refine @sources_mapBlock_of_subset f b _ (fun block => ?_) s hs
      exact sourcesOf_subset (List.take_subset index _)
    · exact sourcesOf_subset_sources (mem_of_block_eq_ok hhead)
        (sourcesOf_subset (List.drop_subset _ _) hs)
  · intro edited hedited target _
    have hstep := @sources_mapBlock edited target (·.mapInstructions (·.map (·.mapIncoming
      fun id => if id = b then f.blocks.length else id))) [f.blocks.length] fun block => by
        rw [Block.mapInstructions, sourcesOf_mapIncoming]
        intro s hs
        obtain ⟨old, hold, rfl⟩ := List.mem_map.mp hs
        split
        next => exact List.mem_append_right _ (List.mem_singleton_self _)
        next => exact List.mem_append_left _ hold
    refine List.Subset.trans hstep (List.append_subset.mpr ⟨hedited, ?_⟩)
    exact List.subset_append_right _ _

theorem sources_hoistAllocas (h : f.hoistAllocas b = .ok g) : g.sources ⊆ f.sources := by
  obtain ⟨source, _, h⟩ := bind_eq_ok.mp h
  obtain ⟨entry, _, h⟩ := bind_eq_ok.mp h
  obtain rfl := Except.ok.inj h
  have hallocas : sourcesOf (source.instructions.takeWhile (·.op.isAlloca)) = [] := by
    apply sourcesOf_of_not_phi
    intro i hi
    have halloca := List.mem_takeWhile_imp hi
    exact Operation.isPhi_of_isAlloca halloca
  refine List.Subset.trans (sources_mapBlock_of_subset fun block => ?_)
    (sources_mapBlock_of_subset fun block => sourcesOf_subset (List.drop_subset _ _))
  rw [Block.mapInstructions, sourcesOf_append, sourcesOf_append, hallocas, List.append_nil,
    ← sourcesOf_append, List.take_append_drop]
  exact List.Subset.refl _

theorem sources_setTerminator {terminator : Terminator}
    (h : f.setTerminator b terminator = .ok g) : g.sources ⊆ f.sources := by
  obtain ⟨_, _, h⟩ := bind_eq_ok.mp h
  obtain rfl := Except.ok.inj h
  exact sources_mapBlock_of_subset fun _ => List.Subset.refl _

/-- A phi of what is returned lists the blocks that return it. -/
theorem sources_bindResult (f : Function) (site : CallSite) (b : BlockId)
    (returned : List (Operand × BlockId)) :
    (f.bindResult site b returned).sources ⊆ f.sources ++ returned.map Prod.snd := by
  unfold bindResult
  split
  next => exact List.subset_append_left _ _
  next =>
    rw [replaceVar, sources_mapOperands]
    exact List.subset_append_left _ _
  next =>
    rw [replaceVar, sources_mapOperands]
    exact List.subset_append_left _ _
  next =>
    apply sources_mapBlock
    intro block
    exact List.append_subset.mpr ⟨List.subset_append_right _ _, List.subset_append_left _ _⟩

/-- The phis of copies list copies. -/
theorem sources_copyBlocks (f : Function) (names : Renaming) (continuation : BlockId) :
    ((f.copyBlocks names continuation).flatMap fun block => sourcesOf block.instructions) =
      f.sources.map names.block := by
  rw [copyBlocks, List.flatMap_map, sources, List.map_flatMap]
  nth_rewrite 2 [← List.zipIdx_map_fst 0 f.blocks]
  rw [List.flatMap_map]
  refine List.flatMap_congr fun entry _ => ?_
  simp only [sourcesOf, List.flatMap_map, List.map_flatMap, Renaming.instruction,
    Instruction.op_mapIncoming, Instruction.op_mapDest, Instruction.op_mapOperands,
    Operation.sources_mapIncoming, Operation.sources_mapDest, Operation.sources_mapOperands]

/-- What is returned comes from a copy. -/
theorem lt_of_mem_returns {names : Renaming} {entry : Operand × BlockId}
    (h : entry ∈ f.returns names) : ∃ id < f.blocks.length, names.block id = entry.2 := by
  obtain ⟨⟨block, id⟩, hblock, h⟩ := List.mem_filterMap.mp h
  have hlt : id < f.blocks.length :=
    (List.getElem?_eq_some_iff.mp (List.mem_zipIdx_iff_getElem?.mp hblock)).1
  dsimp only at h
  split at h
  next =>
    obtain rfl := Option.some.inj h
    exact ⟨id, hlt, rfl⟩
  next => cases h

/-- After inlining, phis list old blocks, the new one, copies, and copies that returned. -/
theorem sources_inlineBody {site : CallSite} (h : f.inlineBody site b index = .ok g) :
    g.sources ⊆ f.sources ++ [f.blocks.length] ++
      site.callee.sources.map (site.renaming f).block ++
        (site.callee.returns (site.renaming f)).map Prod.snd := by
  obtain ⟨split, hoisted, joined, hsplit, hhoisted, hjoined, rfl⟩ := inlineBody_steps h
  have hcopied : hoisted.sources ⊆
      split.sources ++ site.callee.sources.map (site.renaming f).block := by
    rw [← sources_copyBlocks _ _ f.blocks.length]
    unfold sources
    rw [← List.flatMap_append]
    exact sources_hoistAllocas hhoisted
  refine List.Subset.trans (sources_bindResult _ _ _ _) (List.append_subset.mpr ⟨?_, ?_⟩)
  · apply List.subset_append_of_subset_left
    refine List.Subset.trans (sources_setTerminator hjoined) (List.Subset.trans hcopied ?_)
    exact List.append_subset.mpr
      ⟨List.subset_append_of_subset_left _ (sources_splitAt hsplit), List.subset_append_right _ _⟩
  · exact List.subset_append_right _ _

/-- The copies list each other, and what is new lists the copies. -/
theorem Enclosed.inlineBody {site : CallSite} (hf : f.Enclosed) (hcallee : site.callee.Enclosed)
    (h : f.inlineBody site b index = .ok g) : g.Enclosed where
  toClosed := hf.toClosed.inlineBody hcallee.toClosed h
  sources_lt s hs := by
    have hlength := (length_inlineBody h).2
    rw [length_exits, hlength]
    have hcopy : ∀ id < site.callee.blocks.length,
        (site.renaming f).block id < f.blocks.length + 1 + site.callee.blocks.length :=
      fun id hid => (site.renaming f).block_lt rfl rfl hid
    have hold := sources_inlineBody h hs
    simp only [List.mem_append, List.mem_singleton] at hold
    rcases hold with ((hs | rfl) | hs) | hs
    · have hlt := hf.sources_lt s hs
      rw [length_exits] at hlt
      exact Nat.lt_add_right _ (Nat.lt_add_right _ hlt)
    · exact Nat.lt_add_right _ (Nat.lt_succ_self _)
    · obtain ⟨id, hid, rfl⟩ := List.mem_map.mp hs
      exact hcopy id (site.callee.length_exits ▸ hcallee.sources_lt id hid)
    · obtain ⟨entry, hentry, rfl⟩ := List.mem_map.mp hs
      obtain ⟨id, hid, heq⟩ := lt_of_mem_returns hentry
      rw [← heq]
      exact hcopy id hid

end Function

/-! ## Moving globals -/

/-- The code that is written lists only blocks below the bound, or goes to such blocks. -/
structure Draft.Below (draft : Draft) (bound : Nat) : Prop where
  code : ∀ b ∈ sourcesOf draft.code, b < bound
  edges : ∀ edge ∈ draft.edges, edge.1 < bound ∧ ∀ b ∈ sourcesOf edge.2, b < bound

theorem Draft.Below.append {draft : Draft} {bound : Nat} (h : draft.Below bound)
    (values : List ValueInfo) (hcode : ∀ b ∈ sourcesOf code, b < bound) :
    { draft with values := draft.values ++ values, code := draft.code ++ code }.Below bound where
  code := by
    dsimp only
    rw [sourcesOf_append]
    exact List.forall_mem_append.mpr ⟨h.code, hcode⟩
  edges := h.edges

namespace Localized

variable {scope : Localized} {draft draft' : Draft} {bound : Nat}

/-- Computing a constant writes no phis. -/
theorem materialize_below (c : Constant) (h : draft.Below bound) :
    (scope.materialize c draft).2.Below bound := by
  apply materialize_induction (P := fun _ _ next => next.Below bound)
  · exact fun _ _ => h
  · exact fun _ _ _ _ _ hnext => hnext.append _ (List.forall_mem_nil _)
  · exact fun _ _ _ _ _ hnext => hnext.append _ (List.forall_mem_nil _)

theorem expandOperand_below {o o' : Operand} (h : scope.expandOperand o draft = .ok (o', draft'))
    (hdraft : draft.Below bound) : draft'.Below bound := by
  rcases expandOperand_cases h with ⟨_, rfl⟩ | ⟨c, _, hrun⟩
  · exact hdraft
  · have hbelow := scope.materialize_below c hdraft
    rwa [hrun] at hbelow

theorem expandOperands_below {os os' : List Operand}
    (h : (os.mapM scope.expandOperand) draft = .ok (os', draft')) (hdraft : draft.Below bound) :
    draft'.Below bound :=
  (forall_of_mapM_run (Q := fun _ => True) h hdraft
    fun _ _ _ _ _ hs ho => ⟨expandOperand_below ho hs, trivial⟩).1

/-- An operand of a phi adds code only to the block that it is listed for. -/
theorem expandIncoming_below {entry entry' : Operand × BlockId}
    (h : scope.expandIncoming entry draft = .ok (entry', draft')) (hdraft : draft.Below bound)
    (hentry : entry.2 < bound) : draft'.Below bound ∧ entry'.2 < bound := by
  obtain ⟨computed, hvalue, hsource, _, hcode, hedges⟩ := exists_of_expandIncoming h
  have hempty : { draft with code := [] }.Below bound := ⟨List.forall_mem_nil _, hdraft.edges⟩
  have hcomputed := expandOperand_below hvalue hempty
  rw [hsource]
  refine ⟨⟨hcode ▸ hdraft.code, ?_⟩, hentry⟩
  rw [hedges]
  split
  next => exact hcomputed.edges
  next =>
    refine List.forall_mem_append.mpr ⟨hcomputed.edges, List.forall_mem_singleton.mpr ?_⟩
    exact ⟨hentry, hcomputed.code⟩

theorem expandOperation_below {op op' : Operation}
    (h : scope.expandOperation op draft = .ok (op', draft')) (hdraft : draft.Below bound)
    (hop : ∀ b ∈ op.sources, b < bound) :
    draft'.Below bound ∧ ∀ b ∈ op'.sources, b < bound := by
  rcases exists_of_expandOperation h with
    ⟨dest, ty, incoming, incoming', rfl, rfl, hincoming⟩ | ⟨os, hphi, rfl, hos⟩
  · have hentries := List.forall_mem_map.mp hop
    obtain ⟨hbelow, hentries'⟩ := forall_of_mapM_run hincoming hdraft
      fun entry hentry _ _ _ hs hrun => expandIncoming_below hrun hs (hentries entry hentry)
    exact ⟨hbelow, List.forall_mem_map.mpr hentries'⟩
  · rw [Operation.sources_of_not_phi ((op.isPhi_withOperands os).trans hphi)]
    exact ⟨expandOperands_below hos hdraft, List.forall_mem_nil _⟩

/-- Instructions that are expanded list the same blocks. -/
theorem expandInstructions_below {old : List Instruction}
    (h : (old.forM scope.expandInstruction) draft = .ok ((), draft')) (hdraft : draft.Below bound)
    (hold : ∀ b ∈ sourcesOf old, b < bound) : draft'.Below bound := by
  apply expandInstructions_induction h hdraft
  intro i hi first op middle hfirst hop
  have hsources : ∀ b ∈ i.op.sources, b < bound :=
    fun b hb => hold b (List.mem_flatMap.mpr ⟨i, hi, hb⟩)
  obtain ⟨hmiddle, hsources⟩ := expandOperation_below hop hfirst hsources
  have hcode : ∀ b ∈ sourcesOf [{ i with op }], b < bound := by
    rwa [sourcesOf, List.flatMap_singleton]
  have hnext := hmiddle.append [] hcode
  rwa [List.append_nil] at hnext

theorem expandBlock_below {block block' : Block}
    (h : scope.expandBlock block draft = .ok (block', draft')) (hdraft : draft.Below bound)
    (hblock : ∀ b ∈ sourcesOf block.instructions, b < bound) :
    draft'.Below bound ∧ ∀ b ∈ sourcesOf block'.instructions, b < bound := by
  obtain ⟨middle, os, hbody, hos, rfl⟩ := exists_of_expandBlock h
  have hempty : { draft with code := [] }.Below bound := ⟨List.forall_mem_nil _, hdraft.edges⟩
  have hlast := expandOperands_below hos (expandInstructions_below hbody hempty hblock)
  exact ⟨hlast, hlast.code⟩

def place (f : Function) (edges : List (BlockId × List Instruction)) : Except Fault Function :=
  edges.foldlM (fun f edge => f.updateBlock edge.1 (·.mapInstructions (· ++ edge.2))) f

/-- How an expansion ends, without what a failure leaves. -/
theorem expandFunction_outcome (scope : Localized) (f : Function) :
    (scope.expandFunction f).mapError Aborted.failure = (do
      let expanded ← (scope.expandBlocks f.blocks { values := f.values }).mapError Aborted.failure
      faulting (place { f with blocks := expanded.1, values := expanded.2.values }
        expanded.2.edges)) := by
  rw [expandFunction, mapError_bind]
  simp only [StateT.run, Expansion.within, failure_map, failure_leaving]
  rfl

/-- The code for operands of phis has blocks to go to. -/
theorem exists_place {f : Function} {edges : List (BlockId × List Instruction)}
    (hf : ∀ b ∈ f.sources, b < f.blocks.length)
    (hedges : ∀ edge ∈ edges,
      edge.1 < f.blocks.length ∧ ∀ b ∈ sourcesOf edge.2, b < f.blocks.length) :
    ∃ g, place f edges = .ok g ∧ g.blocks.length = f.blocks.length ∧
      ∀ b ∈ g.sources, b < f.blocks.length := by
  apply exists_foldlM_eq_ok
    (fun g : Function => g.blocks.length = f.blocks.length ∧ ∀ b ∈ g.sources, b < f.blocks.length)
  · intro edge hedge edited ⟨hlength, hsources⟩
    obtain ⟨hlt, hcode⟩ := hedges edge hedge
    obtain ⟨block, hblock⟩ := Function.exists_block (hlength.symm ▸ hlt)
    refine ⟨_, bind_eq_ok.mpr ⟨block, hblock, rfl⟩, (edited.length_mapBlock _ _).trans hlength, ?_⟩
    intro b hb
    have hadded : b ∈ edited.sources ++ sourcesOf edge.2 := by
      refine Function.sources_mapBlock (fun block => ?_) hb
      rw [Block.mapInstructions, sourcesOf_append]
      exact List.Subset.refl _
    exact (List.mem_append.mp hadded).elim (hsources b) (hcode b)
  · exact ⟨rfl, hf⟩

section

variable {f g : Function} (hf : ∀ b ∈ f.sources, b < f.blocks.length)

include hf

/-- There is a block for all the code that an expansion has left. -/
theorem exists_place_expanded {expanded : List Block × Draft}
    (h : (f.blocks.mapM scope.expandBlock).run { values := f.values } = .ok expanded) :
    ∃ g, place { f with blocks := expanded.1, values := expanded.2.values } expanded.2.edges =
      .ok g ∧ g.blocks.length = f.blocks.length ∧ ∀ b ∈ g.sources, b < f.blocks.length := by
  have hstart : Draft.Below { values := f.values } f.blocks.length :=
    ⟨List.forall_mem_nil _, List.forall_mem_nil _⟩
  have hlength : expanded.1.length = f.blocks.length := length_mapM_run h
  obtain ⟨hbelow, hblocks⟩ := forall_of_mapM_run h hstart fun block hblock _ _ _ hs hrun =>
    expandBlock_below hrun hs fun b hb => hf b (Function.sourcesOf_subset_sources hblock hb)
  rw [← hlength] at hbelow hblocks ⊢
  refine exists_place (fun b hb => ?_) hbelow.edges
  obtain ⟨block, hblock, hb⟩ := List.mem_flatMap.mp hb
  exact hblocks block hblock b hb

/-- A function whose phis list its blocks is expanded, unless an operand is refused. -/
theorem expandFunction_eq_error_iff {e : Failure} :
    (scope.expandFunction f).mapError Aborted.failure = .error e ↔
      f.operands.findSome? scope.refusal? = some e := by
  rw [expandFunction_outcome, bind_eq_error]
  refine Iff.trans (or_iff_left ?_) (scope.expandBlocks_failsAt f.blocks { values := f.values } e)
  rintro ⟨expanded, hexpanded, hplace⟩
  obtain ⟨g, hg, _⟩ :=
    exists_place_expanded hf (expandBlocks_eq_ok.mp (mapError_eq_ok.mp hexpanded))
  rw [hg] at hplace
  cases hplace

/-- An expansion fails only for an operand that is not supported. -/
theorem expandFunction_fails (scope : Localized) :
    FailsFor (fun e => Failure.Only Rejection.IsUnsupported e.failure)
      (scope.expandFunction f) := by
  intro e h
  apply scope.only_unsupported_of_refusal
  exact (expandFunction_eq_error_iff hf).mp (mapError_eq_error.mpr ⟨e, h, rfl⟩)

/-- Phis list blocks of the body after their operands are computed. -/
theorem sources_expandFunction (h : scope.expandFunction f = .ok g) :
    ∀ b ∈ g.sources, b < f.blocks.length := by
  obtain ⟨blocks, draft, hblocks, h⟩ := exists_of_expandFunction h
  obtain ⟨placed, hplaced, _, hsources⟩ := exists_place_expanded hf hblocks
  obtain rfl := Except.ok.inj (hplaced.symm.trans h)
  exact hsources

end

theorem sources_prepared (scope : Localized) (f : Function) :
    (scope.prepared f).sources ⊆ f.sources := by
  refine @Function.sources_mapBlock_of_subset f f.entry _ fun block => ?_
  have hfront : sourcesOf (scope.allocas f.values.length ++ scope.stores f.values.length) = [] := by
    apply sourcesOf_of_not_phi
    exact fun i hi => (plain_of_mem_front hi).1
  rw [Block.mapInstructions, sourcesOf_append, hfront]
  exact List.Subset.refl _

theorem sources_prepared_lt {scope : Localized} {f : Function} (hf : f.Enclosed) :
    ∀ b ∈ (scope.prepared f).sources, b < (scope.prepared f).blocks.length := by
  intro b hb
  rw [prepared, Function.length_prepend, ← f.length_exits]
  exact hf.sources_lt b (scope.sources_prepared f hb)

/-- A body is given storage, unless an aggregate mentions a global. -/
theorem localizeInto_fails (scope : Localized) {f : Function} (hf : f.Enclosed) :
    FailsFor (fun e => Failure.Only Rejection.IsUnsupported e.failure)
      (scope.localizeInto f) := by
  obtain ⟨block, hblock⟩ := Function.exists_block (f.length_exits ▸ hf.entry_lt)
  rw [localizeInto_eq, hblock]
  exact (expandFunction_fails (sources_prepared_lt hf) scope).bind fun _ => .ok _

/-- Storage for globals keeps phis in their body. -/
theorem enclosed_localizeInto {f g : Function} (hf : f.Enclosed)
    (h : scope.localizeInto f = .ok g) : g.Enclosed where
  toClosed := (sameFlow_localizeInto h).closed hf.toClosed
  sources_lt := by
    rw [(sameFlow_localizeInto h).exits]
    obtain ⟨expanded, hexpanded, rfl⟩ := expandFunction_of_localizeInto h
    rw [Function.sources_mapOperands, f.length_exits, ← f.length_prepend]
    exact sources_expandFunction (sources_prepared_lt hf) hexpanded

end Localized

/-! ## Modules -/

namespace Function

theorem Enclosed.of_sameFlow {f g : Function} (hf : f.Enclosed) (hflow : f.SameFlow g)
    (hsources : g.sources ⊆ f.sources) : g.Enclosed where
  toClosed := hflow.closed hf.toClosed
  sources_lt b hb := hflow.exits ▸ hf.sources_lt b (hsources hb)

/-- The second function is a body if the first is one, and then enclosed if the first is. -/
structure Encloses (f g : Function) : Prop where
  isDeclaration : g.isDeclaration = f.isDeclaration
  enclosed : f.Enclosed → g.Enclosed

namespace Encloses

theorem refl (f : Function) : f.Encloses f := ⟨rfl, id⟩

theorem trans {f g k : Function} (h : f.Encloses g) (h' : g.Encloses k) : f.Encloses k :=
  ⟨h'.isDeclaration.trans h.isDeclaration, h'.enclosed ∘ h.enclosed⟩

theorem mapOperands (f : Function) (change : Operand → Operand) :
    f.Encloses (f.mapOperands change) where
  isDeclaration := (f.sameFlow_mapOperands change).isDeclaration
  enclosed hf := hf.of_sameFlow (f.sameFlow_mapOperands change)
    (f.sources_mapOperands change ▸ List.Subset.refl _)

theorem localizeInto {scope : Localized} {f g : Function} (h : scope.localizeInto f = .ok g) :
    f.Encloses g where
  isDeclaration := (Localized.sameFlow_localizeInto h).isDeclaration
  enclosed hf := Localized.enclosed_localizeInto hf h

end Encloses

end Function

namespace Module

/-- In the bodies of the module, control and phis keep to the blocks of their body. -/
def Enclosed (m : Module) : Prop :=
  ∀ id f, m.function? id = some f → f.isDeclaration = false → f.Enclosed

variable {m n : Module}

/-- In a verified module, phis list blocks of their body. -/
theorem enclosed_of_verified (hverified : m.defects = []) : m.Enclosed := by
  intro id f hf hbody
  have hdefects := (defects_eq_nil_iff.mp hverified).2.2.2.2 id f hf
  exact (wellFormed_of_functionDefects hbody hdefects).enclosed

namespace Enclosed

theorem closed (h : m.Enclosed) : m.Closed := fun id f hf hbody => (h id f hf hbody).toClosed

/-- What encloses each body encloses all of them. -/
theorem of_derives (h : m.Enclosed) (hderives : m.Derives Function.Encloses n) : n.Enclosed := by
  intro id g hg hbody
  obtain ⟨f, hf, hencloses⟩ := hderives id g hg
  exact hencloses.enclosed (h id f hf (hencloses.isDeclaration ▸ hbody))

/-- However many calls are inlined, phis list blocks of their body. -/
theorem inlineAll {plan : Plan} {budget count : Nat} (h : m.Enclosed)
    (hinlined : plan.inlineAll budget m = .ok (n, count)) : n.Enclosed :=
  bodies_inlineAll Function.Enclosed.inlineBody h hinlined

theorem prune_eraseForced (h : m.Enclosed) (plan : Plan) : (plan.eraseForced m).prune.Enclosed := by
  have htrans : ∀ ⦃f g k : Function⦄, f.Encloses g → g.Encloses k → f.Encloses k :=
    fun _ _ _ => Function.Encloses.trans
  have herased : m.Derives Function.Encloses (plan.eraseForced m) :=
    derives_eraseForced Function.Encloses.refl htrans (fun _ _ f => .mapOperands f _) m
  exact h.of_derives (herased.trans htrans (derives_prune Function.Encloses.refl htrans _))

end Enclosed

theorem encloses_localizeGroup {owner : FunctionId} {ids : List GlobalId} {names : List String}
    (h : m.localizeGroup owner ids = .ok (n, names)) : m.Derives Function.Encloses n :=
  derives_localizeGroup Function.Encloses.refl @Function.Encloses.trans
    (fun _ _ _ hlocalized => .localizeInto hlocalized) h

end Module

end Monolith

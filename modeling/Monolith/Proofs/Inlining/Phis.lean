import Mathlib.Logic.Relation
import Monolith.Proofs.Inlining.PhiChoices
import Monolith.Proofs.Inlining.VerifiedCallers
import Monolith.Proofs.Verify.ClosedBodies

/-! # Phis after inlining

The phis of the caller list the block behind the call instead of the call, those of the
callee list copies, and the phi of what is returned lists the copies of the blocks that
return a value. So each phi still has exactly one entry for each predecessor exactly if
the entry of the callee, into which control now comes, has no phi, and if no value is
missing where they are merged.
-/

namespace Monolith

variable {b c : BlockId} {block : Block}

def Terminator.returnsValue : Terminator → Bool
  | .ret (some _) => true
  | _ => false

/-- If what is returned has to be merged, each return carries a value. -/
def CallSite.Merges (site : CallSite) : Prop :=
  site.dest.isSome = true → 2 ≤ site.callee.blocks.countP (·.terminator.returnsValue) →
    ∀ block ∈ site.callee.blocks, block.terminator ≠ .ret none

theorem Terminator.mapOperands_eq_ret {change : Operand → Operand} {t : Terminator}
    {value : Option Operand} (h : t.mapOperands change = .ret value) :
    ∃ before, t = .ret before ∧ value = before.map change := by
  cases t with
  | ret before => exact ⟨before, rfl, (Terminator.ret.inj h).symm⟩
  | _ => cases h

namespace Inlining

variable (inl : Inlining)

theorem listingsOf_hoist (b : BlockId) (code : List Instruction) :
    listingsOf (inl.hoist b code) = listingsOf code := by
  have hallocas : listingsOf inl.allocas = [] := listingsOf_eq_nil_iff.mpr fun i hi =>
    Operation.isPhi_of_isAlloca (inl.allocas_isAlloca i hi)
  unfold hoist
  split
  next =>
    dsimp only
    rw [listingsOf_append, listingsOf_append, hallocas, List.append_nil, ← listingsOf_append,
      List.take_append_drop]
  next => rfl

theorem listingsOf_kept (hb : inl.caller.block? b = some block) :
    listingsOf (inl.kept b block) = inl.caller.listings b := by
  unfold kept
  split
  next heq =>
    subst heq
    have hrest : listingsOf (inl.call :: inl.after) = [] := by
      rw [listingsOf_eq_nil_iff, List.forall_mem_cons]
      exact ⟨inl.call_not_phi, inl.after_not_phi⟩
    rw [Function.listings, inl.body_block, listingsOf_append, hrest, List.append_nil]
  next => rw [Function.listings, Function.body_eq hb]

theorem listings_caller (hb : b < inl.cont) :
    inl.result.listings b = (inl.caller.listings b).map (·.map inl.moved) := by
  have hblock := List.getElem?_eq_getElem hb
  rw [Function.listings, inl.body_of_block? hblock, listingsOf_mapOperands, listingsOf_hoist,
    listingsOf_map inl.moved (fun i => by simp) (fun i _ => by simp),
    inl.listingsOf_kept hblock]

theorem listings_cont :
    inl.result.listings inl.cont = inl.merge.map (·.op.sources) := by
  have hafter : listingsOf inl.after = [] := listingsOf_eq_nil_iff.mpr inl.after_not_phi
  rw [Function.listings, body_cont, listingsOf_mapOperands, listingsOf_append, hafter,
    List.append_nil, listingsOf, List.filter_eq_self.mpr inl.merge_isPhi]

theorem listings_clone (hc : c < inl.callee.blocks.length) :
    inl.result.listings (inl.clone c) = (inl.callee.listings c).map (·.map inl.clone) := by
  have hblock : inl.callee.block? c = some inl.callee.blocks[c] := List.getElem?_eq_getElem hc
  obtain ⟨front, hcopied, hfront⟩ := inl.exists_copied hblock
  have hnone : listingsOf front = [] := listingsOf_eq_nil_iff.mpr fun i hi =>
    Operation.isPhi_of_isAlloca (inl.allocas_isAlloca i (hfront i hi))
  have hcopy : listingsOf (inl.copied c inl.callee.blocks[c]) =
      listingsOf ((inl.callee.body c).map inl.names.instruction) := by
    rw [Function.body_eq hblock, hcopied, listingsOf_append, hnone, List.nil_append]
  rw [Function.listings, inl.body_clone hblock, listingsOf_mapOperands, hcopy]
  refine listingsOf_map inl.clone (fun i => by simp [Renaming.instruction]) fun i hi => ?_
  simp only [Renaming.instruction, Instruction.op_mapIncoming, Instruction.op_mapDest,
    Instruction.op_mapOperands, Operation.sources_mapIncoming, Operation.sources_mapDest,
    Operation.sources_mapOperands]
  exact List.map_congr_left fun a ha => inl.names_block (inl.callee_shaped.lt_of_listed hi ha)

theorem selectsAt_caller (hb : b < inl.cont) : inl.result.SelectsAt b ↔ inl.caller.SelectsAt b := by
  have hlt : ∀ a, b ∈ inl.caller.successors a → a < inl.cont := by
    intro a ha
    obtain ⟨block, hblock, _⟩ := Function.mem_successors.mp ha
    exact (List.getElem?_eq_some_iff.mp hblock).1
  refine inl.shaped.selectsAt_rename (inl.listings_caller hb) (fun a => ?_) fun a a' ha ha' =>
    inl.moved_inj (hlt a ha) (hlt a' ha')
  rw [mem_successors_result, inl.flow_caller_iff hb]

theorem selectsAt_clone (hc : c < inl.callee.blocks.length) (hne : c ≠ inl.callee.entry) :
    inl.result.SelectsAt (inl.clone c) ↔ inl.callee.SelectsAt c := by
  refine inl.callee_shaped.selectsAt_rename (inl.listings_clone hc) (fun a => ?_) fun _ _ _ _ =>
    Nat.add_left_cancel
  rw [mem_successors_result, inl.flow_clone_iff hne]

/-- Control now comes into the entry of the callee, for which its phis have no entry. -/
theorem selectsAt_entry :
    inl.result.SelectsAt (inl.clone inl.callee.entry) ↔
      inl.callee.listings inl.callee.entry = [] := by
  rw [Function.SelectsAt, inl.listings_clone inl.callee_shaped.entry_lt]
  constructor
  · intro h
    rw [List.eq_nil_iff_forall_not_mem]
    intro sources hsources
    have hone := h _ (List.mem_map_of_mem hsources) inl.block
      (inl.mem_successors_result.mpr .enter)
    obtain ⟨i, hi, _, rfl⟩ := mem_listingsOf.mp hsources
    have hnone : i.op.sources = [] := List.eq_nil_iff_forall_not_mem.mpr fun a ha =>
      inl.callee_shaped.entry_not_successor a (inl.callee_shaped.sources_precede _ i hi a ha)
    rw [hnone] at hone
    cases hone
  · intro h
    rw [h]
    exact List.forall_mem_nil _

theorem returned_nodup : (inl.returned.map Prod.snd).Nodup := by
  have hplaces : inl.callee.blocks.zipIdx.Pairwise fun p q => p.2 ≠ q.2 := by
    rw [← List.pairwise_map, List.zipIdx_map_snd]
    exact List.nodup_range'
  have hlt : ∀ {block c}, (block, c) ∈ inl.callee.blocks.zipIdx →
      c < inl.callee.blocks.length := fun h =>
    (List.getElem?_eq_some_iff.mp (List.mem_zipIdx_iff_getElem?.mp h)).1
  -- Each block is at one place and adds at most one entry, for its copy.
  rw [List.Nodup, List.pairwise_map, returned, Function.returns, List.pairwise_filterMap]
  refine hplaces.imp_of_mem ?_
  rintro ⟨block, c⟩ ⟨block', c'⟩ hc hc' hne entry hentry entry' hentry' heq
  dsimp only at hne hentry hentry'
  split at hentry
  next =>
    split at hentry'
    next =>
      obtain rfl := Option.some.inj hentry
      obtain rfl := Option.some.inj hentry'
      rw [inl.names_block (hlt hc), inl.names_block (hlt hc')] at heq
      exact hne (Nat.add_left_cancel heq)
    next => cases hentry'
  next => cases hentry

/-- The copy of a returning block is listed exactly if the block returns a value. -/
theorem mem_returned_iff (hc : inl.callee.block? c = some block)
    (hreturn : block.terminator.isReturn = true) :
    inl.clone c ∈ inl.returned.map Prod.snd ↔ block.terminator ≠ .ret none := by
  constructor
  · intro h hnone
    obtain ⟨⟨o, _⟩, hentry, rfl⟩ := List.mem_map.mp h
    obtain ⟨d, other, value, hd, hret, _, heq⟩ := inl.mem_returned.mp hentry
    obtain rfl := Nat.add_left_cancel heq
    obtain rfl := Option.some.inj (hc.symm.trans hd)
    cases hnone.symm.trans hret
  · intro h
    cases hterm : block.terminator with
    | ret value =>
        cases value with
        | none => exact absurd hterm h
        | some value =>
            have hentry := inl.mem_returned.mpr ⟨c, block, value, hc, hterm, rfl, rfl⟩
            exact List.mem_map.mpr ⟨_, hentry, rfl⟩
    | _ => simp [hterm, Terminator.isReturn] at hreturn

theorem length_returned :
    inl.returned.length = inl.callee.blocks.countP (·.terminator.returnsValue) := by
  nth_rewrite 1 [← List.zipIdx_map_fst 0 inl.callee.blocks]
  rw [returned, Function.returns, List.length_filterMap_eq_countP, List.countP_map]
  refine List.countP_congr fun entry _ => ?_
  obtain ⟨block, c⟩ := entry
  cases hterm : block.terminator with
  | ret value => cases value <;> simp [Terminator.returnsValue, hterm]
  | _ => simp [Terminator.returnsValue, hterm]

/-- The phi of what is returned has one entry for each copy of a returning block exactly
if all of them return a value. -/
theorem selectsAt_cont : inl.result.SelectsAt inl.cont ↔ inl.site.Merges := by
  rw [Function.SelectsAt, listings_cont, CallSite.Merges, ← length_returned]
  rcases inl.binding_cases with ⟨hdest, _, hmerge⟩ | ⟨dest, hdest, hreturned, _, hmerge⟩ |
    ⟨dest, value, source, hdest, hreturned, _, hmerge⟩ |
    ⟨dest, first, second, rest, hdest, hreturned, _, hmerge⟩
  · simp [hmerge, hdest]
  · simp [hmerge, hreturned]
  · simp [hmerge, hreturned]
  · -- Only here is there a phi.
    have htwo : 2 ≤ inl.returned.length := by simp [hreturned]
    simp only [hmerge, hdest, Option.isSome_some, htwo, forall_const, List.map_cons, List.map_nil,
      List.forall_mem_singleton, mem_successors_result, Operation.sources]
    constructor
    · intro h block hblock hnone
      obtain ⟨c, hc⟩ := List.getElem?_of_mem hblock
      have hreturn : block.terminator.isReturn = true := by rw [hnone]; rfl
      have hone := h _ (.leave hc hreturn)
      have hlisted := List.count_pos_iff.mp (by rw [hone]; exact Nat.one_pos)
      exact (inl.mem_returned_iff hc hreturn).mp hlisted hnone
    · intro h a hflow
      obtain ⟨c, block, rfl, hc, hreturn⟩ := inl.flow_cont hflow
      apply List.count_eq_one_of_mem inl.returned_nodup
      exact (inl.mem_returned_iff hc hreturn).mpr (h block (List.mem_of_getElem? hc))

/-- When each phi has exactly one entry for each predecessor after inlining. -/
theorem selectsOne_result_iff :
    inl.result.SelectsOne ↔ inl.caller.SelectsOne ∧ inl.callee.SelectsOne ∧
      inl.callee.listings inl.callee.entry = [] ∧ inl.site.Merges := by
  rw [← inl.selectsAt_cont, ← inl.selectsAt_entry]
  simp only [Function.selectsOne_iff]
  constructor
  · intro h
    refine ⟨fun b => ?_, fun c => ?_, h _, h _⟩
    · by_cases hb : b < inl.cont
      · exact (inl.selectsAt_caller hb).mp (h b)
      · exact Function.selectsAt_of_le (Nat.le_of_not_lt hb)
    · by_cases hc : c < inl.callee.blocks.length
      · -- In the callee itself, nothing comes before the entry.
        rcases eq_or_ne c inl.callee.entry with rfl | hne
        · exact fun _ _ a ha => absurd ha (inl.callee_shaped.entry_not_successor a)
        · exact (inl.selectsAt_clone hc hne).mp (h _)
      · exact Function.selectsAt_of_le (Nat.le_of_not_lt hc)
  · rintro ⟨hcaller, hcallee, hentry, hcont⟩ b
    by_cases hb : b < inl.result.blocks.length
    · rcases inl.result_cases (List.getElem?_eq_getElem hb) with ⟨old, hold, _⟩ | ⟨rfl, _⟩ |
        ⟨c, old, rfl, hold, _⟩
      · exact (inl.selectsAt_caller (List.getElem?_eq_some_iff.mp hold).1).mpr (hcaller b)
      · exact hcont
      · rcases eq_or_ne c inl.callee.entry with rfl | hne
        · exact hentry
        · exact (inl.selectsAt_clone (List.getElem?_eq_some_iff.mp hold).1 hne).mpr (hcallee c)
    · exact Function.selectsAt_of_le (Nat.le_of_not_lt hb)

theorem listings_entry (h : inl.caller.listings inl.caller.entry = []) :
    inl.result.listings inl.result.entry = [] := by
  change inl.result.listings inl.caller.entry = []
  rw [inl.listings_caller inl.entry_lt, h]
  rfl

/-- Only the returns of the caller are left. -/
theorem exists_return_of_result (hblock : block ∈ inl.result.blocks) {value : Option Operand}
    (hret : block.terminator = .ret value) :
    ∃ old ∈ inl.caller.blocks, ∃ before, old.terminator = .ret before ∧
      value = before.map inl.subst := by
  obtain ⟨b, hb⟩ := List.getElem?_of_mem hblock
  rcases inl.result_cases hb with ⟨old, hold, rfl⟩ | ⟨rfl, rfl⟩ | ⟨c, old, rfl, hold, rfl⟩
  · rcases eq_or_ne b inl.block with rfl | hne
    · simp [callerBlock, exit, Terminator.mapOperands] at hret
    · rw [callerBlock, Block.terminator_mapOperands, exit, if_neg hne] at hret
      exact ⟨old, List.mem_of_getElem? hold, Terminator.mapOperands_eq_ret hret⟩
  · rw [contBlock, Block.terminator_mapOperands] at hret
    exact ⟨inl.head, List.mem_of_getElem? inl.block_eq, Terminator.mapOperands_eq_ret hret⟩
  · rw [calleeBlock, Block.terminator_mapOperands] at hret
    obtain ⟨before, hbefore, _⟩ := Terminator.mapOperands_eq_ret hret
    have hnone : (inl.names.terminator inl.cont old.terminator).isReturn = false := by
      cases old.terminator <;> rfl
    change inl.names.terminator inl.cont old.terminator = .ret before at hbefore
    rw [hbefore] at hnone
    cases hnone

theorem result_returnsAgree (h : inl.caller.ReturnsAgree) : inl.result.ReturnsAgree := by
  refine h.imp (fun h block hblock hret => ?_) fun h block hblock value hret => ?_
  · obtain ⟨old, hold, before, hbefore, heq⟩ := inl.exists_return_of_result hblock hret
    rw [Option.map_eq_none_iff.mp heq.symm] at hbefore
    exact h old hold hbefore
  · obtain ⟨old, hold, before, hbefore, heq⟩ := inl.exists_return_of_result hblock hret
    obtain ⟨o, rfl, _⟩ := Option.map_eq_some_iff.mp heq.symm
    exact h old hold o hbefore

end Inlining

theorem CallSite.merges_of_returnsAgree {site : CallSite} (h : site.callee.ReturnsAgree) :
    site.Merges := by
  intro _ htwo
  rcases h with hall | hnone
  · exact hall
  · obtain ⟨block, hblock, hreturns⟩ := List.countP_pos_iff.mp (Nat.lt_of_lt_of_le Nat.two_pos htwo)
    unfold Terminator.returnsValue at hreturns
    split at hreturns
    next value hret => exact absurd hret (hnone block hblock value)
    next => cases hreturns

/-! ## Any number of calls -/

/-- A body whose phis select one entry, also where it is inlined. -/
structure Function.Lasting (f : Function) : Prop where
  selectsOne : f.SelectsOne
  entry : f.listings f.entry = []
  returns : f.ReturnsAgree

namespace Module

def Inlines (m n : Module) : Prop := ∃ caller b index, m.inlineCall caller b index = .ok (some n)

/-- All bodies have the shape that inlining keeps. -/
def Shaped (m : Module) : Prop :=
  ∀ id f, m.function? id = some f → f.isDeclaration = false → f.WellShaped

variable {m n : Module}

theorem shaped_of_verified (hverified : m.defects = []) : m.Shaped := by
  intro id f hf hbody
  have hdefects := (defects_eq_nil_iff.mp hverified).2.2.2.2 id f hf
  exact (wellFormed_of_functionDefects hbody hdefects).wellShaped

/-- A call that is inlined, as an inlining between bodies. -/
theorem Shaped.exists_inlining (hm : m.Shaped) {caller : FunctionId} {index : Nat}
    (h : m.inlineCall caller b index = .ok (some n)) :
    ∃ (inl : Inlining) (callee : FunctionId), m.function? caller = some inl.caller ∧
      Function.callSite? m inl.caller b index = some inl.site ∧
      m.function? callee = some inl.callee ∧ n = m.setFunction caller inl.result := by
  obtain ⟨f, site, inlined, hf, hsite, _, _, hinlined, rfl⟩ := exists_of_inlineCall h
  obtain ⟨block, i, _, callee, hblock, hi, hop, hcallee, hbody⟩ := exists_call_of_callSite? hsite
  have hcaller := (Function.isDeclaration_inlineBody hinlined).1
  obtain ⟨inl, rfl, rfl, _, hresult⟩ := Inlining.exists_of_call hblock hi hop
    (hm caller _ hf hcaller) (hm callee _ hcallee hbody)
  obtain rfl := Except.ok.inj (hinlined.symm.trans hresult)
  exact ⟨inl, callee, hf, hsite, hcallee, rfl⟩

theorem Shaped.inlines (hm : m.Shaped) (h : m.Inlines n) : n.Shaped := by
  obtain ⟨caller, b, index, h⟩ := h
  obtain ⟨inl, _, hcaller, _, _, rfl⟩ := hm.exists_inlining h
  intro id g hg hbody
  rw [function?_setFunction hcaller] at hg
  split at hg
  next =>
    obtain rfl := Option.some.inj hg
    exact inl.result_shaped
  next => exact hm id g hg hbody

theorem Shaped.lasting (hm : m.Shaped) (hlasting : ∀ id f, m.function? id = some f → f.Lasting)
    (h : m.Inlines n) : ∀ id f, n.function? id = some f → f.Lasting := by
  obtain ⟨caller, b, index, h⟩ := h
  obtain ⟨inl, callee, hcaller, _, hcallee, rfl⟩ := hm.exists_inlining h
  intro id g hg
  rw [function?_setFunction hcaller] at hg
  split at hg
  next =>
    obtain rfl := Option.some.inj hg
    have hf := hlasting caller _ hcaller
    have hc := hlasting callee _ hcallee
    refine ⟨inl.selectsOne_result_iff.mpr ⟨hf.selectsOne, hc.selectsOne, hc.entry, ?_⟩,
      inl.listings_entry hf.entry, inl.result_returnsAgree hf.returns⟩
    exact CallSite.merges_of_returnsAgree hc.returns
  next => exact hlasting id g hg

theorem Shaped.inlinesAny (hm : m.Shaped) (h : Relation.ReflTransGen Inlines m n) : n.Shaped := by
  induction h with
  | refl => exact hm
  | tail _ hstep ih => exact ih.inlines hstep

theorem Shaped.lastingAny (hm : m.Shaped) (hlasting : ∀ id f, m.function? id = some f → f.Lasting)
    (h : Relation.ReflTransGen Inlines m n) : ∀ id f, n.function? id = some f → f.Lasting := by
  induction h with
  | refl => exact hlasting
  | tail hsteps hstep ih => exact (hm.inlinesAny hsteps).lasting ih hstep

theorem selectsOne_iff_listsOnce (hverified : m.defects = []) {id : FunctionId} {f : Function}
    (hf : m.function? id = some f) : f.SelectsOne ↔ f.ListsOnce := by
  cases hbody : f.isDeclaration with
  | false =>
      have hdefects := (defects_eq_nil_iff.mp hverified).2.2.2.2 id f hf
      exact (wellFormed_of_functionDefects hbody hdefects).selectsOne_iff_listsOnce
  | true =>
      have hblocks : f.blocks = [] := List.isEmpty_iff.mp hbody
      simp [Function.SelectsOne, Function.ListsOnce, Function.body, Function.block?, hblocks]

/-- In a verified module, each phi has exactly one entry for each predecessor of its block
exactly if no phi lists a block twice. A call that is inlined, there or after others, keeps
this exactly if the callee has it, the entry of the callee has no phi, and all its returns
carry a value where they are merged. On every walk, the entry that is picked does not matter
exactly if all entries for the block that control comes from have the same operand. -/
theorem phis_select_one_iff (hverified : m.defects = [])
    (hinlined : Relation.ReflTransGen Inlines m n) :
    (∀ id f, m.function? id = some f → (f.SelectsOne ↔ f.ListsOnce)) ∧
    (∀ id f, n.function? id = some f →
      (f.Decided ↔ f.EntriesAgree) ∧ (f.SelectsOne → f.Decided)) ∧
    (∀ caller b index next, n.inlineCall caller b index = .ok (some next) →
      ∃ f site g, n.function? caller = some f ∧ Function.callSite? n f b index = some site ∧
        next.function? caller = some g ∧
        (g.SelectsOne ↔ f.SelectsOne ∧ site.callee.SelectsOne ∧
          (∀ i ∈ site.callee.body site.callee.entry, i.op.isPhi = false) ∧ site.Merges)) ∧
    ((∀ id f, m.function? id = some f →
        f.ListsOnce ∧ (∀ i ∈ f.body f.entry, i.op.isPhi = false) ∧ f.ReturnsAgree) →
      ∀ id f, n.function? id = some f → f.SelectsOne ∧ f.Decided) := by
  have hshaped := shaped_of_verified hverified
  have hdecided : ∀ f : Function, f.SelectsOne → f.Decided := fun f h =>
    Function.decided_iff_entriesAgree.mpr h.entriesAgree
  refine ⟨fun id f => selectsOne_iff_listsOnce hverified,
    fun id f _ => ⟨Function.decided_iff_entriesAgree, hdecided f⟩, ?_, ?_⟩
  · intro caller b index next hnext
    obtain ⟨inl, _, hcaller, hsite, _, rfl⟩ :=
      (hshaped.inlinesAny hinlined).exists_inlining hnext
    refine ⟨inl.caller, inl.site, inl.result, hcaller, hsite, ?_, ?_⟩
    · rw [function?_setFunction hcaller, if_pos rfl]
    · rw [inl.selectsOne_result_iff]
      simp only [Function.listings, listingsOf_eq_nil_iff]
  · intro h id f hf
    have hselects := (hshaped.lastingAny ?_ hinlined id f hf).selectsOne
    · exact ⟨hselects, hdecided f hselects⟩
    · intro id f hf
      obtain ⟨honce, hentry, hreturns⟩ := h id f hf
      exact ⟨(selectsOne_iff_listsOnce hverified hf).mpr honce, listingsOf_eq_nil_iff.mpr hentry,
        hreturns⟩

/-- The block of the call follows itself, and the callee returns at two places. -/
theorem inlineCall_loop_selects_one :
    loopModule.defects = [] ∧ ∃ n, loopModule.inlineCall 0 1 1 = .ok (some n) ∧
      ∀ id f, n.function? id = some f → f.SelectsOne ∧ f.Decided := by
  have hverified : loopModule.defects = [] := by decide +kernel
  have hcall : loopModule.CallAt 0 1 1 1 loop
      { dest := some 1, returnType := .int 32, callee := choice, args := [.var 0] } :=
    ⟨rfl, ⟨_, _, rfl, rfl, rfl⟩, rfl, rfl, rfl⟩
  obtain ⟨inl, _, _, _, hinlined⟩ := hcall.exists_inlining hverified (by decide) (by decide)
    (by decide) fun _ => .inl (by decide)
  refine ⟨hverified, _, hinlined, ?_⟩
  refine (phis_select_one_iff hverified (.single ⟨0, 1, 1, hinlined⟩)).2.2.2 ?_
  intro id f hf
  have hfunctions : f = loop ∨ f = choice := by
    rcases id with _ | _ | id
    · exact .inl (Option.some.inj hf).symm
    · exact .inr (Option.some.inj hf).symm
    · cases hf
  rcases hfunctions with rfl | rfl
  · exact ⟨by decide, by decide, .inl (by decide)⟩
  · exact ⟨by decide, by decide, .inl (by decide)⟩

/-- A phi that lists the only predecessor of its block twice. -/
def either : Function where
  name := "main"
  returnType := .int 32
  blocks := [
    { terminator := .jump 1 },
    { instructions := [{ op := .phi 0 (.int 32) [(.i32 1, 0), (.i32 2, 0)] }]
      terminator := .ret (some (.var 0)) }]
  values := [{ ty := .int 32 }]

def doubled : Module where
  name := "doubled"
  functions := [some either]

/-- The module is accepted, but the phi may take either value. -/
theorem doubled_takes_either :
    doubled.defects = [] ∧ doubled.function? 0 = some either ∧ ¬ either.SelectsOne ∧
      ¬ either.Decided := by
  refine ⟨by decide +kernel, rfl, fun h => ?_, fun h => ?_⟩
  · have hone := h 1 _ List.mem_cons_self rfl 0 (by decide)
    revert hone
    decide
  · have hwalk : either.Walk [1, 0] := .step .start (Function.edge_iff.mpr (by decide))
    have hsame := Function.decided_iff_entriesAgree.mp h 1 0 [] hwalk _ List.mem_cons_self 0 _ _ rfl
      (.i32 1) (.i32 2) (by simp) (by simp)
    revert hsame
    decide

end Module

end Monolith

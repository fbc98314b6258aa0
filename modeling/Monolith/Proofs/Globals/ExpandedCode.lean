import Monolith.Proofs.Globals.ExpandedForm
import Monolith.Proofs.Globals.ExpansionSteps

/-! # What expansion writes

Expansion runs over a body with a draft of the code that it writes. When it succeeds, the
blocks that it has written, with slots in place of bare references, are those of the body
with its operands computed.
-/

namespace Monolith.Localized

variable {draft draft' : Draft} {o : Operand}

def placed (slots : Slots) (code : List Instruction) : List Instruction :=
  code.map (·.mapOperands (useSlot slots))

theorem placed_append (slots : Slots) (code more : List Instruction) :
    placed slots (code ++ more) = placed slots code ++ placed slots more :=
  List.map_append

def placedEdges (slots : Slots) (edges : Edges) : Edges :=
  edges.map fun edge => (edge.1, placed slots edge.2)

theorem placedEdges_append (slots : Slots) (edges more : Edges) :
    placedEdges slots (edges ++ more) = placedEdges slots edges ++ placedEdges slots more :=
  List.map_append

theorem placedEdges_single (slots : Slots) (b : BlockId) (code : List Instruction) :
    placedEdges slots (Edges.single b code) = Edges.single b (placed slots code) := by
  cases code <;> rfl

variable {scope : Localized} {slots : Slots}

theorem useSlot_of_not_global (h : ∀ id, o ≠ .const (.global id)) : useSlot slots o = o := by
  unfold useSlot
  split
  next id => exact absurd rfl (h id)
  next => rfl

/-- What does not tell a global from a variable stays when slots are used. -/
theorem view_useSlot {α : Type} {view : Operand → α}
    (hview : ∀ id x, view (.var x) = view (.const (.global id))) (o : Operand) :
    view (useSlot slots o) = view o := by
  unfold useSlot
  split
  next id =>
    split
    next slot _ => exact hview id slot
    next => rfl
  next => rfl

/-! ## Operands -/

section

variable (hslots : ∀ id, scope.tracks id = (slots.lookup id).isSome)

include hslots

/-- Constants that mention no tracked global have no slots to use. -/
theorem lookup_eq_none_of_any {ids : List GlobalId} (h : ¬ids.any scope.tracks = true) :
    ∀ id ∈ ids, slots.lookup id = none := by
  intro id hid
  have htracks : scope.tracks id = false := by
    by_contra hne
    exact h (List.any_eq_true.mpr ⟨id, hid, by simpa using hne⟩)
  rw [hslots, Option.isSome_eq_false_iff, Option.isNone_iff_eq_none] at htracks
  exact htracks

omit hslots in
theorem computed_global (values : List ValueInfo) (id : GlobalId) :
    Computed slots values (.const (.global id)) [] (useSlot slots (.const (.global id)))
      values := by
  cases hlookup : slots.lookup id with
  | some slot =>
      simp only [useSlot, hlookup]
      exact .slot hlookup
  | none =>
      simp only [useSlot, hlookup]
      refine .const fun other hother => ?_
      obtain rfl := List.mem_singleton.mp hother
      exact hlookup

/-- A constant that is no aggregate is kept where it does not mention a tracked global. -/
theorem computed_kept {c : Constant} (hplain : c.isAggregate = false)
    (hnone : c.isExpr = true → c.globals.any scope.tracks = false) (values : List ValueInfo) :
    Computed slots values (.const c) [] (useSlot slots (.const c)) values := by
  cases c with
  | global id => exact computed_global values id
  | aggregate => cases hplain
  | elementPtr | cast =>
      exact .const (lookup_eq_none_of_any hslots (Bool.eq_false_iff.mp (hnone rfl)))
  | int | null | undef | poison | bytes | function => exact .const (List.forall_mem_nil _)

/-- Materializing a constant without aggregates computes it. -/
theorem materialize_spec {c : Constant} (hplain : ∀ p : Constant, p.Part c → p.isAggregate = false)
    (h : scope.materialize c draft = (o, draft')) :
    ∃ code, draft' = { draft with values := draft'.values, code := draft.code ++ code } ∧
      Computed slots draft.values (.const c) (placed slots code) (useSlot slots o)
        draft'.values := by
  obtain ⟨rfl, rfl⟩ := Prod.mk.inj h
  revert hplain
  apply materialize_induction (P := fun c o next =>
    (∀ p : Constant, p.Part c → p.isAggregate = false) →
      ∃ code, next = { draft with values := next.values, code := draft.code ++ code } ∧
        Computed slots draft.values (.const c) (placed slots code) (useSlot slots o) next.values)
  · intro c hnone hplain
    exact ⟨[], by simp, computed_kept hslots (hplain c .whole) hnone _⟩
  · intro source base indices o next ih hplain
    obtain ⟨code, hnext, hbase⟩ := ih fun p hp => hplain p (.base hp)
    refine ⟨code ++ [{ op := .elementPtr next.values.length source o (indices.map .i32) true }],
      ?_, ?_⟩
    · rw [hnext, List.append_assoc]
    · have hindices : (indices.map Operand.i32).map (useSlot slots) = indices.map Operand.i32 := by
        rw [List.map_map]
        rfl
      rw [placed_append]
      simp only [placed, List.map_cons, List.map_nil, Instruction.mapOperands,
        Operation.mapOperands, hindices]
      exact .elementPtr hbase
  · intro op value ty o next ih hplain
    obtain ⟨code, hnext, hvalue⟩ := ih fun p hp => hplain p (.value hp)
    refine ⟨code ++ [{ op := .cast op next.values.length o ty }], ?_, ?_⟩
    · rw [hnext, List.append_assoc]
    · rw [placed_append]
      exact .cast hvalue

/-- Expanding an operand computes it, unless it is left as it is. -/
theorem expandOperand_spec {o' : Operand} (h : scope.expandOperand o draft = .ok (o', draft'))
    (hcomputable : ∀ c, o = .const c → c.Computable) :
    ∃ code, draft' = { draft with values := draft'.values, code := draft.code ++ code } ∧
      Computed slots draft.values o (placed slots code) (useSlot slots o') draft'.values := by
  cases o with
  | var x =>
      obtain ⟨rfl, rfl⟩ := Prod.mk.inj (Except.ok.inj h)
      exact ⟨[], by simp, .var⟩
  | const c =>
      rcases expandOperand_const h with ⟨hnone, rfl, rfl⟩ | ⟨haggregate, hrun⟩
      · refine ⟨[], by simp, ?_⟩
        by_cases hglobal : ∃ id, c = .global id
        · obtain ⟨id, rfl⟩ := hglobal
          exact computed_global _ id
        · rw [useSlot_of_not_global fun id heq => hglobal ⟨id, Operand.const.inj heq⟩]
          exact .const (lookup_eq_none_of_any hslots (Bool.eq_false_iff.mp hnone))
      · have hplain : ∀ p : Constant, p.Part c → p.isAggregate = false := by
          intro p hp
          cases hexpr : c.isExpr with
          | true => exact (hcomputable c rfl).no_aggregate c p .whole hexpr hp
          | false =>
              cases hp with
              | whole => exact haggregate
              | element => cases haggregate
              | base => cases hexpr
              | value => cases hexpr
        exact materialize_spec hslots hplain hrun

/-- The operands are computed one after the other. -/
theorem expandOperands_spec {os os' : List Operand}
    (h : (os.mapM scope.expandOperand) draft = .ok (os', draft'))
    (hcomputable : ∀ c, .const c ∈ os → c.Computable) :
    os'.length = os.length ∧
      ∃ code, draft' = { draft with values := draft'.values, code := draft.code ++ code } ∧
        ComputedAll slots draft.values os (placed slots code) (os'.map (useSlot slots))
          draft'.values := by
  induction os generalizing os' draft with
  | nil =>
      obtain ⟨rfl, rfl⟩ := Prod.mk.inj (Except.ok.inj h)
      exact ⟨rfl, [], by simp, .nil⟩
  | cons o os ih =>
      obtain ⟨first, next, rest, hfirst, hrest, rfl⟩ := exists_of_mapM_cons_run h
      obtain ⟨code, hnext, hcomputed⟩ := expandOperand_spec hslots hfirst fun c hc =>
        hcomputable c (hc ▸ List.mem_cons_self)
      obtain ⟨hlength, more, hlast, hall⟩ := ih hrest fun c hc =>
        hcomputable c (List.mem_cons_of_mem _ hc)
      refine ⟨by rw [List.length_cons, List.length_cons, hlength], code ++ more, ?_, ?_⟩
      · rw [hlast, hnext, List.append_assoc]
      · rw [placed_append]
        exact .cons hcomputed hall

/-! ## Instructions -/

/-- An operand of a phi is computed at the end of the block that it is listed for. -/
theorem expandIncoming_spec {entry entry' : Operand × BlockId}
    (h : scope.expandIncoming entry draft = .ok (entry', draft'))
    (hcomputable : ∀ c, entry.1 = .const c → c.Computable) :
    ∃ code, draft' = { draft with
        values := draft'.values, edges := draft.edges ++ Edges.single entry.2 code } ∧
      entry'.2 = entry.2 ∧
      Computed slots draft.values entry.1 (placed slots code) (useSlot slots entry'.1)
        draft'.values := by
  unfold expandIncoming at h
  -- the code of the block is put aside, so what is emitted is the code of the edge
  obtain ⟨⟨value, next⟩, hvalue, h⟩ := bind_eq_ok.mp h
  obtain ⟨rfl, rfl⟩ := Prod.mk.inj (Except.ok.inj h)
  obtain ⟨code, hnext, hcomputed⟩ := expandOperand_spec hslots hvalue hcomputable
  refine ⟨code, ?_, rfl, hcomputed⟩
  rw [hnext]
  cases code <;> simp [Edges.single]

theorem expandIncomings_spec {incoming incoming' : List (Operand × BlockId)}
    (h : (incoming.mapM scope.expandIncoming) draft = .ok (incoming', draft'))
    (hcomputable : ∀ c, .const c ∈ incoming.map Prod.fst → c.Computable) :
    ∃ edges, draft' = { draft with values := draft'.values, edges := draft.edges ++ edges } ∧
      ComputedIncoming slots draft.values incoming (placedEdges slots edges)
        (incoming'.map fun entry => (useSlot slots entry.1, entry.2)) draft'.values := by
  induction incoming generalizing incoming' draft with
  | nil =>
      obtain ⟨rfl, rfl⟩ := Prod.mk.inj (Except.ok.inj h)
      exact ⟨[], by simp, .nil⟩
  | cons entry incoming ih =>
      obtain ⟨first, next, rest, hfirst, hrest, rfl⟩ := exists_of_mapM_cons_run h
      obtain ⟨code, hnext, hsource, hcomputed⟩ := expandIncoming_spec hslots hfirst fun c hc =>
        hcomputable c (hc ▸ List.mem_cons_self)
      obtain ⟨edges, hlast, hall⟩ := ih hrest fun c hc =>
        hcomputable c (List.mem_cons_of_mem _ hc)
      refine ⟨Edges.single entry.2 code ++ edges, ?_, ?_⟩
      · rw [hlast, hnext, List.append_assoc]
      · rw [placedEdges_append, placedEdges_single, List.map_cons, hsource]
        exact .cons hcomputed hall

/-- The instructions are expanded in order, each behind its operands. -/
theorem expandInstructions_spec {old : List Instruction}
    (h : (old.forM scope.expandInstruction) draft = .ok ((), draft'))
    (hcomputable : ∀ i ∈ old, ∀ c, .const c ∈ i.op.operands → c.Computable) :
    ∃ out edges, draft' = { draft' with
        code := draft.code ++ out, edges := draft.edges ++ edges } ∧
      Expanded slots draft.values old (placed slots out) (placedEdges slots edges)
        draft'.values := by
  induction old generalizing draft with
  | nil =>
      obtain ⟨_, rfl⟩ := Prod.mk.inj (Except.ok.inj h)
      exact ⟨[], [], by simp, .nil⟩
  | cons i old ih =>
      obtain ⟨⟨_, next⟩, hfirst, h⟩ := bind_eq_ok.mp h
      obtain ⟨out, edges, hlast, hrest⟩ := ih h fun j hj =>
        hcomputable j (List.mem_cons_of_mem _ hj)
      obtain ⟨op, middle, hop, rfl⟩ := exists_of_expandInstruction hfirst
      rcases exists_of_expandOperation hop with
        ⟨dest, ty, incoming, incoming', hkind, rfl, hincoming⟩ | ⟨os, hphi, rfl, hos⟩
      · obtain ⟨more, hmiddle, hincoming⟩ := expandIncomings_spec hslots hincoming fun c hc =>
          hcomputable i List.mem_cons_self c (by rw [hkind]; exact hc)
        refine ⟨{ i with op := .phi dest ty incoming' } :: out, more ++ edges, ?_, ?_⟩
        · rw [hlast, hmiddle]
          simp
        · rw [placedEdges_append]
          exact .phi hkind hincoming hrest
      · obtain ⟨hlength, code, hmiddle, hcode⟩ := expandOperands_spec hslots hos
          (hcomputable i List.mem_cons_self)
        refine ⟨code ++ { i with op := i.op.withOperands os } :: out, edges, ?_, ?_⟩
        · rw [hlast, hmiddle]
          simp
        · rw [placed_append]
          have hplaced : placed slots ({ i with op := i.op.withOperands os } :: out) =
              { i with op := i.op.withOperands (os.map (useSlot slots)) } ::
                placed slots out := by
            rw [← Operation.mapOperands_withOperands _ hlength]
            rfl
          rw [hplaced]
          exact .instruction hphi hcode hrest

/-! ## Blocks -/

/-- The blocks are expanded in order, and code is left for their ends. -/
theorem expandBlocks_spec {blocks blocks' : List Block}
    (h : (blocks.mapM scope.expandBlock) draft = .ok (blocks', draft'))
    (hcomputable : ∀ block ∈ blocks, ∀ c, .const c ∈ block.operands → c.Computable) :
    ∃ edges, draft'.edges = draft.edges ++ edges ∧
      ExpandedBlocks slots draft.values blocks (blocks'.map (·.mapOperands (useSlot slots)))
        (placedEdges slots edges) draft'.values := by
  induction blocks generalizing blocks' draft with
  | nil =>
      obtain ⟨rfl, rfl⟩ := Prod.mk.inj (Except.ok.inj h)
      exact ⟨[], by simp, .nil⟩
  | cons block blocks ih =>
      obtain ⟨first, next, rest, hfirst, hrest, rfl⟩ := exists_of_mapM_cons_run h
      obtain ⟨more, hlast, hall⟩ := ih hrest fun other hother =>
        hcomputable other (List.mem_cons_of_mem _ hother)
      have hblock := hcomputable block List.mem_cons_self
      obtain ⟨passed, os, hbody, hos, rfl⟩ := exists_of_expandBlock hfirst
      obtain ⟨out, edges, hpassed, hbody⟩ := expandInstructions_spec hslots hbody fun i hi c hc =>
        hblock c (List.mem_append_left _ (List.mem_flatMap.mpr ⟨i, hi, hc⟩))
      obtain ⟨hlength, code, hcode, hcomputed⟩ := expandOperands_spec hslots hos fun c hc =>
        hblock c (List.mem_append_right _ hc)
      refine ⟨edges ++ more, ?_, ?_⟩
      · rw [hlast, hcode, hpassed, List.append_assoc]
      · have hinstructions : next.code = out ++ code := by
          rw [hcode, hpassed]
          simp
        have hplaced : Block.mapOperands (useSlot slots) { block with
              instructions := next.code
              terminator := block.terminator.withOperands os } =
            { block with
              instructions := placed slots out ++ placed slots code
              terminator := block.terminator.withOperands (os.map (useSlot slots)) } := by
          rw [hinstructions, ← Terminator.mapOperands_withOperands _ hlength, ← placed_append]
          rfl
        rw [List.map_cons, hplaced, placedEdges_append]
        exact .cons hbody hcomputed hall

end

/-! ## Functions -/

theorem map_spill (edges : Edges) (blocks : List Block) :
    (edges.spill blocks).map (·.mapOperands (useSlot slots)) =
      (placedEdges slots edges).spill (blocks.map (·.mapOperands (useSlot slots))) := by
  apply List.ext_getElem?
  intro b
  have htail : (placedEdges slots edges).tail b = placed slots (edges.tail b) := by
    simp only [Edges.tail, placedEdges, placed, List.filter_map, List.flatMap_map,
      List.map_flatMap]
    rfl
  rw [List.getElem?_map, Edges.getElem?_spill, Edges.getElem?_spill, List.getElem?_map, htail]
  cases blocks[b]? with
  | none => rfl
  | some block =>
      simp [Block.mapInstructions, Block.mapOperands, placed]

theorem spill_of_foldlM {edges : Edges} {f g : Function}
    (h : edges.foldlM (fun f edge =>
      f.updateBlock edge.1 (·.mapInstructions (· ++ edge.2))) f = .ok g) :
    g = { f with blocks := edges.spill f.blocks } ∧ ∀ edge ∈ edges, edge.1 < f.blocks.length := by
  induction edges generalizing f with
  | nil =>
      obtain rfl := Except.ok.inj h
      exact ⟨rfl, List.forall_mem_nil _⟩
  | cons edge edges ih =>
      rw [List.foldlM_cons] at h
      obtain ⟨next, hnext, h⟩ := bind_eq_ok.mp h
      obtain ⟨block, hblock, hnext⟩ := bind_eq_ok.mp hnext
      obtain rfl := Except.ok.inj hnext
      obtain ⟨rfl, hlt⟩ := ih h
      refine ⟨rfl, List.forall_mem_cons.mpr
        ⟨Function.block_lt_of_eq_ok hblock, fun other hother => ?_⟩⟩
      simpa [Function.mapBlock] using hlt other hother

/-- What expansion gives, with slots in place of bare references. -/
theorem expandFunction_spec (hslots : ∀ id, scope.tracks id = (slots.lookup id).isSome)
    {f g : Function} (h : scope.expandFunction f = .ok g)
    (hcomputable : ∀ c, .const c ∈ f.operands → c.Computable) :
    ∃ blocks edges values, ExpandedBlocks slots f.values f.blocks blocks edges values ∧
      (∀ edge ∈ edges, edge.1 < f.blocks.length) ∧
      g.mapOperands (useSlot slots) = { f with blocks := edges.spill blocks, values } := by
  obtain ⟨blocks, draft, hblocks, h⟩ := exists_of_expandFunction h
  obtain ⟨edges, hedges, hexpanded⟩ := expandBlocks_spec hslots hblocks fun block hblock c hc =>
    hcomputable c (List.mem_flatMap.mpr ⟨block, hblock, hc⟩)
  have hlength := length_mapM_run hblocks
  obtain ⟨rfl, hlt⟩ := spill_of_foldlM h
  simp only [hedges, List.nil_append, hlength] at hlt ⊢
  refine ⟨_, _, _, hexpanded, ?_, ?_⟩
  · intro edge hedge
    obtain ⟨old, hold, rfl⟩ := List.mem_map.mp hedge
    exact hlt old hold
  · rw [Function.mapOperands, map_spill]

end Monolith.Localized

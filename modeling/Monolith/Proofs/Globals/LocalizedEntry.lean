import Monolith.Proofs.Globals.LocalizedBody

/-! # The entry of a function with storage for globals

The entry begins with the allocas, one for each global. The stores of the initializers and the
old instructions follow in order, each behind the code that computes its operands. What is left
at the end computes the operands of the terminator, and those of phis in other blocks.
-/

namespace Monolith

/-- The instruction is one of those that constant expressions are computed by. -/
inductive Instruction.Evaluates (i : Instruction) : Prop where
  | elementPtr {dest : ValueId} {source : Ty} {base : Operand} {indices : List Operand}
      (h : i = { op := .elementPtr dest source base indices true })
  | cast {op : CastOp} {dest : ValueId} {value : Operand} {ty : Ty}
      (h : i = { op := .cast op dest value ty })

section

variable {slots : Slots} {values values' : List ValueInfo}

/-- The code for an operand only computes constant expressions. -/
theorem Computed.evaluates {o o' : Operand} {code : List Instruction}
    (h : Computed slots values o code o' values') : ∀ i ∈ code, i.Evaluates := by
  induction h with
  | var | const | slot => exact List.forall_mem_nil _
  | elementPtr _ ih =>
      exact List.forall_mem_append.mpr ⟨ih, List.forall_mem_singleton.mpr (.elementPtr rfl)⟩
  | cast _ ih =>
      exact List.forall_mem_append.mpr ⟨ih, List.forall_mem_singleton.mpr (.cast rfl)⟩

theorem ComputedAll.evaluates {os os' : List Operand} {code : List Instruction}
    (h : ComputedAll slots values os code os' values') : ∀ i ∈ code, i.Evaluates := by
  induction h with
  | nil => exact List.forall_mem_nil _
  | cons hfirst _ ih => exact List.forall_mem_append.mpr ⟨hfirst.evaluates, ih⟩

def Edges.Evaluate (edges : Edges) : Prop := ∀ edge ∈ edges, ∀ i ∈ edge.2, i.Evaluates

theorem ComputedIncoming.evaluate {incoming incoming' : List (Operand × BlockId)} {edges : Edges}
    (h : ComputedIncoming slots values incoming edges incoming' values') : edges.Evaluate := by
  induction h with
  | nil => exact List.forall_mem_nil _
  | cons hfirst _ ih =>
      refine List.forall_mem_append.mpr ⟨fun edge hedge => ?_, ih⟩
      rw [Edges.mem_single hedge]
      exact hfirst.evaluates

/-- What is put at the ends of blocks computes the operands of phis. -/
theorem Expanded.evaluate {old out : List Instruction} {edges : Edges}
    (h : Expanded slots values old out edges values') : edges.Evaluate := by
  induction h with
  | nil => exact List.forall_mem_nil _
  | instruction _ _ _ ih => exact ih
  | phi _ hincoming _ ih => exact List.forall_mem_append.mpr ⟨hincoming.evaluate, ih⟩

theorem ExpandedBlocks.evaluate {blocks blocks' : List Block} {edges : Edges}
    (h : ExpandedBlocks slots values blocks blocks' edges values') : edges.Evaluate := by
  induction h with
  | nil => exact List.forall_mem_nil _
  | cons hbody _ _ ih => exact List.forall_mem_append.mpr ⟨hbody.evaluate, ih⟩

/-- Each block keeps its place, with its own instructions in order and code for its terminator
behind them. -/
theorem ExpandedBlocks.block {blocks blocks' : List Block} {edges : Edges}
    (h : ExpandedBlocks slots values blocks blocks' edges values') {b : BlockId} {block : Block}
    (hb : blocks[b]? = some block) :
    ∃ block' first last own out rest, blocks'[b]? = some block' ∧
      block'.instructions = out ++ rest ∧
      Expanded slots first block.instructions out own last ∧ ∀ i ∈ rest, i.Evaluates := by
  induction h generalizing b with
  | nil => cases hb
  | cons hbody hend _ ih =>
      cases b with
      | zero =>
          obtain rfl := Option.some.inj hb
          exact ⟨_, _, _, _, _, _, rfl, rfl, hbody, hend.evaluates⟩
      | succ b => exact ih hb

end

/-- The second function is the first with storage for the globals, in the given order. -/
structure Function.Houses (owned : List (GlobalId × Global)) (f g : Function) : Prop where
  entry : g.entry = f.entry
  begins : ∃ out rest edges values values',
    g.body f.entry =
      (owned.mapIdx fun k entry =>
        { op := .alloca (f.values.length + k) entry.2.valueType entry.2.alignment
            entry.2.addrSpace : Instruction }) ++ out ++ rest ∧
    Expanded (owned.mapIdx fun k entry => (entry.1, f.values.length + k)) values
      (initializerStores (fun id => id ∈ owned.map Prod.fst) f.values.length
        (f.values.length + owned.length) (owned.map Prod.snd) ++ f.body f.entry)
      out edges values' ∧
    ∀ i ∈ rest, i.Evaluates

namespace Localized

variable {scope : Localized} {m : Module} {f g : Function}

theorem tracks_eq (scope : Localized) :
    scope.tracks = fun id => decide (id ∈ scope.globals.map Prod.fst) := by
  funext id
  rw [Bool.eq_iff_iff, tracks, List.any_eq_true, decide_eq_true_iff, List.mem_map]
  simp

theorem allocas_eq (scope : Localized) (first : ValueId) :
    scope.allocas first = scope.globals.mapIdx fun k entry =>
      { op := .alloca (first + k) entry.2.valueType entry.2.alignment entry.2.addrSpace } := by
  rw [List.mapIdx_eq_zipIdx_map]
  rfl

/-- The slots follow one another in the order of the globals. -/
theorem slots_eq (scope : Localized) (first : ValueId) :
    scope.slots first = scope.globals.mapIdx fun k entry => (entry.1, first + k) := by
  rw [List.mapIdx_eq_zipIdx_map]
  rfl

/-- Moving globals into a function gives it storage for each of them, in its entry. -/
theorem Suits.houses (h : scope.Suits m f) (hg : scope.localizeInto f = .ok g) :
    f.Houses scope.globals g := by
  obtain ⟨ex, _, hslots, hbody, hallocas, rfl⟩ := h.exists_expansion hg
  have hentry : ex.body.entry = f.entry := by rw [hbody]; rfl
  have hlt : ex.body.entry < ex.body.blocks.length := ex.admits.form.entry_lt
  have hb : ex.body.block? ex.body.entry = some ex.body.blocks[ex.body.entry] :=
    List.getElem?_eq_getElem hlt
  obtain ⟨block', first, last, own, out, rest, hblock', hout, hexpanded, hrest⟩ :=
    ex.expanded.block hb
  have hprepared : ex.body.blocks[ex.body.entry].instructions = scope.allocas f.values.length ++
      (scope.stores f.values.length ++ f.body f.entry) := by
    rw [← Function.body_eq hb, hentry, hbody, ← List.append_assoc]
    exact Function.body_prepend_entry _ _ h.admits.form.entry_lt
  have hresult : ex.result.body f.entry = out ++ rest ++ ex.edges.tail f.entry := by
    have hblock : ex.result.block? f.entry =
        some (block'.mapInstructions (· ++ ex.edges.tail f.entry)) := by
      change (ex.edges.spill ex.blocks)[f.entry]? = _
      rw [Edges.getElem?_spill, ← hentry, hblock']
      rfl
    rw [Function.body_eq hblock, Block.instructions_mapInstructions, hout]
  rw [hprepared, ← hallocas] at hexpanded
  -- the allocas mention no globals, so they stand as they are
  obtain ⟨out, rfl, hstores⟩ := hexpanded.preamble ex.allocas_plain
  refine ⟨hentry, out, rest ++ ex.edges.tail f.entry, own, first, last, ?_, ?_, ?_⟩
  · rw [hresult, hallocas, allocas_eq]
    simp only [List.append_assoc]
  · rw [hslots, slots_eq, stores, tracks_eq] at hstores
    exact hstores
  · refine List.forall_mem_append.mpr ⟨hrest, fun i hi => ?_⟩
    obtain ⟨edge, hedge, hi⟩ := List.mem_flatMap.mp hi
    exact ex.expanded.evaluate edge (List.mem_of_mem_filter hedge) i hi

end Localized

end Monolith

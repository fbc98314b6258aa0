import Mathlib.Data.List.Nodup
import Monolith.Proofs.Code.Rewriting
import Monolith.Proofs.ControlFlow.Dominance
import Monolith.Proofs.Lists
import Monolith.Verify

/-! # Well-formed bodies

A body is well formed if control stays inside it and never comes back to the
entry, phis stand at the heads of blocks and list exactly the predecessors, and
every variable is defined once and before every read, on every walk. Verifying a
function finds no defect of its form exactly if its body is well formed.
-/

namespace Monolith

variable {d : Definition} {done : List Instruction} {block : Block} {index : Nat} {x : ValueId}
  {f : Function} {b : BlockId}

theorem mem_filterMap_var? {operands : List Operand} :
    x ∈ operands.filterMap Operand.var? ↔ .var x ∈ operands := by
  rw [List.mem_filterMap]
  constructor
  · rintro ⟨o, ho, hx⟩
    cases o with
    | var y =>
        obtain rfl := Option.some.inj hx
        exact ho
    | const c => cases hx
  · exact fun h => ⟨.var x, h, rfl⟩

theorem repeats_eq_nil_iff {α : Type} [BEq α] [LawfulBEq α] {entries : List α} :
    repeats entries = [] ↔ entries.Nodup := by
  simp only [repeats, List.map_eq_nil_iff, List.filter_eq_nil_iff, Prod.forall,
    List.mem_zipIdx_iff_getElem?, List.contains_iff_mem]
  rw [List.Nodup, List.pairwise_iff_getElem]
  constructor
  · intro h p q hp hq hpq heq
    apply h entries[q] q (List.getElem?_eq_getElem hq)
    exact List.mem_take_iff_getElem.mpr ⟨p, by omega, heq⟩
  · intro h a q hq hmem
    obtain ⟨hlt, rfl⟩ := List.getElem?_eq_some_iff.mp hq
    obtain ⟨p, hp, heq⟩ := List.mem_take_iff_getElem.mp hmem
    exact h p q (by omega) hlt (by omega) heq

namespace Function

/-- The instructions of a block, none if it does not exist. -/
def body (f : Function) (b : BlockId) : List Instruction :=
  ((f.block? b).map Block.instructions).getD []

/-- The variables that are defined: parameters, then results. -/
def defined (f : Function) : List ValueId := f.parameters ++ f.blocks.flatMap Block.defs

/-- The operand is read at the given place, when control has come to the block and
passed the instructions `done` of it. A phi reads at the ends of the blocks that it lists. -/
inductive Reads (f : Function) : BlockId → List Instruction → Operand → Prop where
  | instruction {b : BlockId} {block : Block} {before after : List Instruction}
      {i : Instruction} {o : Operand} (hblock : f.block? b = some block)
      (hsplit : block.instructions = before ++ i :: after) (hphi : i.op.isPhi = false)
      (hmem : o ∈ i.op.operands) : Reads f b before o
  | terminator {b : BlockId} {block : Block} {o : Operand} (hblock : f.block? b = some block)
      (hmem : o ∈ block.terminator.operands) : Reads f b block.instructions o
  | phi {b source : BlockId} {block : Block} {i : Instruction} {dest : ValueId} {ty : Ty}
      {incoming : List (Operand × BlockId)} {o : Operand} (hblock : f.block? b = some block)
      (hinstr : i ∈ block.instructions) (hop : i.op = .phi dest ty incoming)
      (hmem : (o, source) ∈ incoming) : Reads f source (f.body source) o

/-- The variable has a value: it is a parameter, or is defined by an instruction that
was passed in this block or by a block that was passed before. -/
def Available (f : Function) (rest : List BlockId) (done : List Instruction) (x : ValueId) :
    Prop :=
  x ∈ f.parameters ∨ x ∈ defsOf done ∨ ∃ d ∈ rest, x ∈ defsOf (f.body d)

/-- The variable has a value at the given place, whatever walk led there. -/
def Visible (f : Function) (b : BlockId) (done : List Instruction) (x : ValueId) : Prop :=
  ∀ rest, f.Walk (b :: rest) → f.Available rest done x

structure WellFormed (f : Function) : Prop where
  entry_lt : f.entry < f.blocks.length
  targets_lt : ∀ a b, b ∈ f.successors a → b < f.blocks.length
  entry_not_successor : ∀ a, f.entry ∉ f.successors a
  phis_first : ∀ b before i after, f.body b = before ++ i :: after → i.op.isPhi = true →
    ∀ j ∈ before, j.op.isPhi = true
  phi_sources : ∀ b, ∀ i ∈ f.body b, ∀ dest ty incoming, i.op = .phi dest ty incoming →
    ∀ a, a ∈ incoming.map Prod.snd ↔ b ∈ f.successors a
  nodup : f.defined.Nodup
  reads_defined : ∀ b done x, f.Reads b done (.var x) → x ∈ f.defined
  reads_visible : ∀ b done x, f.Reads b done (.var x) → f.Visible b done x

/-- A value that is there at the end of a block is there from then on. -/
theorem Available.later {outer rest : List BlockId} (h : f.Available outer (f.body b) x)
    (hb : b ∈ rest) (hsub : outer ⊆ rest) (done : List Instruction) : f.Available rest done x := by
  rcases h with hparam | hbody | ⟨d, hd, hx⟩
  · exact .inl hparam
  · exact .inr (.inr ⟨b, hb, hbody⟩)
  · exact .inr (.inr ⟨d, hsub hd, hx⟩)

theorem body_eq (h : f.block? b = some block) : f.body b = block.instructions := by
  rw [body, h]
  rfl

theorem block?_of_mem_body {i : Instruction} (h : i ∈ f.body b) :
    ∃ block, f.block? b = some block ∧ i ∈ block.instructions := by
  unfold body at h
  cases hblock : f.block? b with
  | none => simp [hblock] at h
  | some block => exact ⟨block, rfl, by simpa [hblock] using h⟩

theorem defsOf_subset {front back : List Instruction} (h : front ⊆ back) (hx : x ∈ defsOf front) :
    x ∈ defsOf back := by
  obtain ⟨i, hi, hd⟩ := mem_defsOf.mp hx
  exact mem_defsOf.mpr ⟨i, h hi, hd⟩

theorem mem_defs_of_body (h : x ∈ defsOf (f.body b)) : x ∈ f.blocks.flatMap Block.defs := by
  obtain ⟨i, hi, hx⟩ := mem_defsOf.mp h
  obtain ⟨block, hblock, hi⟩ := block?_of_mem_body hi
  exact List.mem_flatMap.mpr ⟨block, List.mem_of_getElem? hblock, mem_defsOf.mpr ⟨i, hi, hx⟩⟩

namespace Visible

theorem mono {more : List Instruction} (h : f.Visible b done x) (hsub : done ⊆ more) :
    f.Visible b more x := by
  intro rest hwalk
  rcases h rest hwalk with hparam | hdone | hrest
  · exact .inl hparam
  · exact .inr (.inl (defsOf_subset hsub hdone))
  · exact .inr (.inr hrest)

/-- What was just passed matters only for what it defines. -/
theorem of_append {more : List Instruction} (h : f.Visible b (done ++ more) x)
    (hx : x ∉ defsOf more) : f.Visible b done x := by
  intro rest hwalk
  rcases h rest hwalk with hparam | hdone | hrest
  · exact .inl hparam
  · rw [defsOf_append, List.mem_append] at hdone
    exact .inr (.inl (hdone.resolve_right hx))
  · exact .inr (.inr hrest)

/-- What is visible at the start of a block is visible at the ends of its predecessors. -/
theorem of_edge {a : BlockId} (h : f.Visible b [] x) (hedge : f.Edge a b) :
    f.Visible a (f.body a) x := by
  intro rest hwalk
  rcases h (a :: rest) (hwalk.step hedge) with hparam | hdone | ⟨d, hd, hx⟩
  · exact .inl hparam
  · cases hdone
  · rcases List.mem_cons.mp hd with rfl | hd
    · exact .inr (.inl hx)
    · exact .inr (.inr ⟨d, hd, hx⟩)

theorem defined (h : f.Visible b done x) (hreached : f.Reached b) (hdone : done ⊆ f.body b) :
    x ∈ f.defined := by
  have hbody : ∀ a, x ∈ defsOf (f.body a) → x ∈ f.defined := fun a hx =>
    List.mem_append_right _ (mem_defs_of_body hx)
  obtain ⟨rest, hwalk⟩ := hreached
  rcases h rest hwalk with hparam | hx | ⟨a, _, hx⟩
  · exact List.mem_append_left _ hparam
  · exact hbody b (defsOf_subset hdone hx)
  · exact hbody a hx

end Visible

/-! ## Definitions -/

theorem definitions_map_fst (f : Function) : f.definitions.map Prod.fst = f.defined := by
  have hinner : ∀ (block : Block) (b : BlockId),
      (block.instructions.zipIdx.filterMap fun entry =>
        entry.1.op.dest?.map ((·, Definition.instruction b entry.2))).map Prod.fst =
      block.defs := by
    intro block b
    have hdest : ∀ p : Instruction × Nat, (p.1.op.dest?.map
        ((·, Definition.instruction b p.2))).map Prod.fst = p.1.op.dest? := by
      intro p
      cases p.1.op.dest? <;> rfl
    rw [List.map_filterMap, Block.defs]
    nth_rewrite 2 [← List.zipIdx_map_fst 0 block.instructions]
    rw [List.filterMap_map]
    exact congrArg (List.filterMap · block.instructions.zipIdx) (funext hdest)
  rw [definitions, defined, List.map_append, List.map_map, List.map_flatMap]
  congr 1
  · exact List.map_id' f.parameters
  · nth_rewrite 2 [← List.zipIdx_map_fst 0 f.blocks]
    rw [List.flatMap_map]
    exact congrArg (List.flatMap · f.blocks.zipIdx) (funext fun p => hinner p.1 p.2)

theorem mem_definitions :
    (x, d) ∈ f.definitions ↔ d = .parameter ∧ x ∈ f.parameters ∨
      ∃ b index i, d = .instruction b index ∧ (f.body b)[index]? = some i ∧
        i.op.dest? = some x := by
  have hbody : ∀ (b : BlockId) (index : Nat) i, (f.body b)[index]? = some i ↔
      ∃ block, f.blocks[b]? = some block ∧ block.instructions[index]? = some i := by
    intro b index i
    unfold body block?
    cases f.blocks[b]? <;> simp
  simp only [definitions, List.mem_append, List.mem_map, List.mem_flatMap, List.mem_filterMap,
    Prod.exists, List.mem_zipIdx_iff_getElem?, Option.map_eq_some_iff, Prod.mk.injEq, hbody]
  constructor
  · rintro (⟨y, hy, rfl, rfl⟩ | ⟨block, b, hblock, i, index, hi, y, hy, rfl, rfl⟩)
    · exact .inl ⟨rfl, hy⟩
    · exact .inr ⟨b, index, i, rfl, ⟨block, hblock, hi⟩, hy⟩
  · rintro (⟨rfl, hx⟩ | ⟨b, index, i, rfl, ⟨block, hblock, hi⟩, hx⟩)
    · exact .inl ⟨x, hx, rfl, rfl⟩
    · exact .inr ⟨block, b, hblock, i, index, hi, x, hx, rfl, rfl⟩

/-- With distinct definitions, the one that is looked up is the only one. -/
theorem definition?_eq_some_iff (hnodup : f.defined.Nodup) :
    f.definition? x = some d ↔ (x, d) ∈ f.definitions := by
  rw [definition?, lookup_eq_some_iff_mem, List.mem_reverse]
  rw [List.map_reverse, List.nodup_reverse, definitions_map_fst]
  exact hnodup

theorem exists_definition_iff : (∃ d, f.definition? x = some d) ↔ x ∈ f.defined := by
  rw [← definitions_map_fst, ← Option.isSome_iff_exists, definition?, List.lookup_isSome_iff]
  simp only [List.mem_reverse, beq_iff_eq, List.mem_map]
  exact exists_congr fun p => and_congr_right fun _ => eq_comm

section

variable (hnodup : f.defined.Nodup)

include hnodup

theorem definition_unique {d' : Definition} (h : (x, d) ∈ f.definitions)
    (h' : (x, d') ∈ f.definitions) : d = d' := by
  rw [← definition?_eq_some_iff hnodup] at h h'
  exact Option.some.inj (h.symm.trans h')

theorem not_parameter_of_body (h : x ∈ defsOf (f.body b)) : x ∉ f.parameters := by
  intro hparam
  obtain ⟨i, hi, hx⟩ := List.mem_filterMap.mp h
  obtain ⟨index, hindex⟩ := List.getElem?_of_mem hi
  have := definition_unique hnodup (mem_definitions.mpr (.inl ⟨rfl, hparam⟩))
    (mem_definitions.mpr (.inr ⟨b, index, i, rfl, hindex, hx⟩))
  cases this

/-- A variable is defined at one place only. -/
theorem place_unique {b' : BlockId} {index' : Nat} {i i' : Instruction}
    (hi : (f.body b)[index]? = some i) (hx : i.op.dest? = some x)
    (hi' : (f.body b')[index']? = some i') (hx' : i'.op.dest? = some x) :
    b = b' ∧ index = index' := by
  have := definition_unique hnodup (mem_definitions.mpr (.inr ⟨b, index, i, rfl, hi, hx⟩))
    (mem_definitions.mpr (.inr ⟨b', index', i', rfl, hi', hx'⟩))
  exact Definition.instruction.inj this

theorem block_unique {b' : BlockId} (h : x ∈ defsOf (f.body b)) (h' : x ∈ defsOf (f.body b')) :
    b = b' := by
  obtain ⟨i, hi, hx⟩ := List.mem_filterMap.mp h
  obtain ⟨i', hi', hx'⟩ := List.mem_filterMap.mp h'
  obtain ⟨index, hindex⟩ := List.getElem?_of_mem hi
  obtain ⟨index', hindex'⟩ := List.getElem?_of_mem hi'
  exact (place_unique hnodup hindex hx hindex' hx').1

end

/-! ## Dominance and visibility -/

theorem mem_defsOf_take {instructions : List Instruction} :
    x ∈ defsOf (instructions.take index) ↔
      ∃ place i, place < index ∧ instructions[place]? = some i ∧ i.op.dest? = some x := by
  simp only [defsOf, List.mem_filterMap, List.mem_take_iff_getElem]
  constructor
  · rintro ⟨i, ⟨place, hplace, rfl⟩, hx⟩
    exact ⟨place, _, by omega, List.getElem?_eq_getElem (by omega), hx⟩
  · rintro ⟨place, i, hplace, hi, hx⟩
    obtain ⟨hlt, rfl⟩ := List.getElem?_eq_some_iff.mp hi
    exact ⟨_, ⟨place, by omega, rfl⟩, hx⟩

section

variable (hentry : f.entry < f.blocks.length) (hnodup : f.defined.Nodup)

include hentry hnodup

/-- A definition reaches a place if it is passed on every walk to there. -/
theorem reaches_iff_visible (hd : (x, d) ∈ f.definitions) :
    (f.Reached b → d.reaches f.dominatorTree b index = true) ↔
      f.Visible b ((f.body b).take index) x := by
  rcases mem_definitions.mp hd with ⟨rfl, hx⟩ | ⟨c, place, i, rfl, hi, hx⟩
  · exact iff_of_true (fun _ => rfl) fun _ _ => .inl hx
  have hc : x ∈ defsOf (f.body c) :=
    List.mem_filterMap.mpr ⟨i, List.mem_of_getElem? hi, hx⟩
  constructor
  · intro h rest hwalk
    have hreaches := h ⟨rest, hwalk⟩
    simp only [Definition.reaches] at hreaches
    split at hreaches
    next heq =>
      subst heq
      exact .inr (.inl (mem_defsOf_take.mpr ⟨place, i, of_decide_eq_true hreaches, hi, hx⟩))
    next hne =>
      have hmem := ((dominates_iff hentry).mp hreaches).2 rest hwalk
      exact .inr (.inr ⟨c, (List.mem_cons.mp hmem).resolve_left hne, hc⟩)
  · rintro h ⟨rest, hwalk⟩
    simp only [Definition.reaches]
    split
    next heq =>
      subst heq
      -- Before the first visit of the block nothing of it was passed.
      obtain ⟨_, first, _, hnot, hfirst⟩ := hwalk.first_visit List.mem_cons_self
      rcases h first hfirst with hparam | hdone | ⟨d, hd, hxd⟩
      · exact absurd hparam (not_parameter_of_body hnodup hc)
      · obtain ⟨place', i', hlt, hi', hx'⟩ := mem_defsOf_take.mp hdone
        obtain ⟨_, rfl⟩ := place_unique hnodup hi hx hi' hx'
        exact decide_eq_true hlt
      · rw [block_unique hnodup hxd hc] at hd
        exact absurd hd hnot
    next hne =>
      refine (dominates_iff hentry).mpr ⟨⟨rest, hwalk⟩, fun rest hwalk => ?_⟩
      rcases h rest hwalk with hparam | hdone | ⟨d, hd, hxd⟩
      · exact absurd hparam (not_parameter_of_body hnodup hc)
      · obtain ⟨_, i', _, hi', hx'⟩ := mem_defsOf_take.mp hdone
        exact absurd (place_unique hnodup hi hx hi' hx').1 hne
      · rw [block_unique hnodup hxd hc] at hd
        exact List.mem_cons_of_mem _ hd

theorem reachesEnd_iff_visible (hd : (x, d) ∈ f.definitions) :
    (f.Reached b → d.reachesEnd f.dominatorTree b = true) ↔ f.Visible b (f.body b) x := by
  have hplace : (f.Reached b → d.reaches f.dominatorTree b (f.body b).length = true) ↔
      f.Visible b ((f.body b).take (f.body b).length) x := reaches_iff_visible hentry hnodup hd
  rw [List.take_length] at hplace
  rw [← hplace]
  refine forall_congr' fun hb => ?_
  rcases mem_definitions.mp hd with ⟨rfl, _⟩ | ⟨c, place, i, rfl, hi, _⟩
  · rfl
  · simp only [Definition.reachesEnd, Definition.reaches]
    split
    next heq =>
      subst heq
      refine iff_of_true ((dominates_iff hentry).mpr ⟨hb, fun _ _ => List.mem_cons_self⟩) ?_
      exact decide_eq_true (List.getElem?_eq_some_iff.mp hi).1
    next => rfl

end

/-! ## Verifying -/

theorem useDefects_eq_nil_iff {test : Definition → Bool} :
    f.useDefects b test x = [] ↔ ∃ d, f.definition? x = some d ∧ test d = true := by
  unfold useDefects
  cases f.definition? x with
  | none => simp
  | some d => cases h : test d <;> simp [h]

section

variable (hentry : f.entry < f.blocks.length) (hnodup : f.defined.Nodup)

include hentry hnodup

/-- A read that is tested where control is reached has no defect if the variable is
defined and visible there. -/
theorem useDefects_eq_nil_iff_visible {source : BlockId} {test : Definition → Bool}
    (htest : ∀ d, (x, d) ∈ f.definitions →
      ((f.Reached source → test d = true) ↔ f.Visible source done x)) :
    f.useDefects b (fun d => !f.dominatorTree.isReachable source || test d) x = [] ↔
      x ∈ f.defined ∧ f.Visible source done x := by
  have himp : ∀ d, (!f.dominatorTree.isReachable source || test d) = true ↔
      (f.Reached source → test d = true) := by
    intro d
    rw [← isReachable_iff hentry]
    cases f.dominatorTree.isReachable source <;> simp
  rw [useDefects_eq_nil_iff, ← exists_definition_iff]
  constructor
  · rintro ⟨d, hd, h⟩
    have hmem := (definition?_eq_some_iff hnodup).mp hd
    exact ⟨⟨d, hd⟩, (htest d hmem).mp ((himp d).mp h)⟩
  · rintro ⟨⟨d, hd⟩, h⟩
    have hmem := (definition?_eq_some_iff hnodup).mp hd
    exact ⟨d, hd, (himp d).mpr ((htest d hmem).mpr h)⟩

theorem blockUseDefects_eq_nil_iff (hblock : f.block? b = some block) :
    f.blockUseDefects f.dominatorTree b block = [] ↔
      (∀ before i after, block.instructions = before ++ i :: after → i.op.isPhi = false →
        ∀ x, .var x ∈ i.op.operands → x ∈ f.defined ∧ f.Visible b before x) ∧
      (∀ i ∈ block.instructions, ∀ dest ty incoming, i.op = .phi dest ty incoming →
        ∀ x source, (.var x, source) ∈ incoming →
          x ∈ f.defined ∧ f.Visible source (f.body source) x) ∧
      ∀ x, .var x ∈ block.terminator.operands →
        x ∈ f.defined ∧ f.Visible b block.instructions x := by
  have hplace : ∀ index x, f.useDefects b (fun d => !f.dominatorTree.isReachable b ||
      d.reaches f.dominatorTree b index) x = [] ↔
        x ∈ f.defined ∧ f.Visible b (block.instructions.take index) x := by
    intro index x
    rw [← body_eq hblock]
    exact useDefects_eq_nil_iff_visible hentry hnodup fun d hd =>
      reaches_iff_visible hentry hnodup hd
  have hend : ∀ source x, f.useDefects b (fun d => !f.dominatorTree.isReachable source ||
      d.reachesEnd f.dominatorTree source) x = [] ↔
        x ∈ f.defined ∧ f.Visible source (f.body source) x :=
    fun source x => useDefects_eq_nil_iff_visible hentry hnodup fun d hd =>
      reachesEnd_iff_visible hentry hnodup hd
  simp only [blockUseDefects, List.append_eq_nil_iff, List.flatMap_eq_nil_iff, Prod.forall,
    List.mem_zipIdx_iff_getElem?]
  rw [← and_assoc]
  refine and_congr ?_ ?_
  · constructor
    · intro h
      constructor
      · intro before i after hsplit hphi x hx
        have hi : block.instructions[before.length]? = some i := by simp [hsplit]
        have htake : block.instructions.take before.length = before := by simp [hsplit]
        have hnone := h i before.length hi
        split at hnone
        next hop => simp [hop, Operation.isPhi] at hphi
        next =>
          have hread := List.flatMap_eq_nil_iff.mp hnone x (mem_filterMap_var?.mpr hx)
          rwa [hplace, htake] at hread
      · intro i hi dest ty incoming hop x source hx
        obtain ⟨index, hindex⟩ := List.getElem?_of_mem hi
        have hnone := h i index hindex
        rw [hop] at hnone
        have hread := List.flatMap_eq_nil_iff.mp hnone (.var x, source) hx
        exact (hend source x).mp (List.flatMap_eq_nil_iff.mp hread x (by simp [Operand.var?]))
    · rintro ⟨hinstr, hphi⟩ i index hi
      obtain ⟨hlt, rfl⟩ := List.getElem?_eq_some_iff.mp hi
      split
      next dest ty incoming hop =>
        refine List.flatMap_eq_nil_iff.mpr fun entry hmem => ?_
        obtain ⟨value, source⟩ := entry
        cases value with
        | var x =>
            have hread := hphi _ (List.getElem_mem hlt) dest ty incoming hop x source hmem
            simpa [Operand.var?] using (hend source x).mpr hread
        | const c => rfl
      next hop =>
        refine List.flatMap_eq_nil_iff.mpr fun x hx => (hplace index x).mpr ?_
        refine hinstr _ _ (block.instructions.drop (index + 1)) ?_ ?_ x
          (mem_filterMap_var?.mp hx)
        · rw [← List.drop_eq_getElem_cons hlt, List.take_append_drop]
        · cases hphi : block.instructions[index].op with
          | phi dest ty incoming => exact absurd hphi (hop dest ty incoming)
          | _ => rfl
  · have htake := hplace block.instructions.length
    rw [List.take_length] at htake
    refine forall_congr' fun x => ?_
    rw [htake]
    exact imp_congr_left mem_filterMap_var?

end

theorem sameMembers_iff {as bs : List Nat} :
    sameMembers as bs = true ↔ ∀ a, a ∈ as ↔ a ∈ bs := by
  simp only [sameMembers, Bool.and_eq_true, List.all_eq_true, List.contains_iff_mem]
  exact ⟨fun h a => ⟨h.1 a, h.2 a⟩, fun h => ⟨fun a => (h a).mp, fun a => (h a).mpr⟩⟩

theorem phiDefects_eq_nil_iff :
    f.phiDefects b block = [] ↔
      (∀ before i after, block.instructions = before ++ i :: after → i.op.isPhi = true →
        ∀ j ∈ before, j.op.isPhi = true) ∧
      ∀ i ∈ block.instructions, ∀ dest ty incoming, i.op = .phi dest ty incoming →
        ∀ a, a ∈ incoming.map Prod.snd ↔ b ∈ f.successors a := by
  simp only [phiDefects, List.flatMap_eq_nil_iff, Prod.forall, List.mem_zipIdx_iff_getElem?]
  constructor
  · intro h
    constructor
    · intro before i after hsplit hphi j hj
      have hnone := h i before.length (by simp [hsplit])
      split at hnone
      next =>
        have hfirst : ((block.instructions.take before.length).all (·.op.isPhi)) = true := by
          by_contra hnot
          simp [hnot] at hnone
        rw [List.all_eq_true] at hfirst
        exact hfirst j (by simp [hsplit, hj])
      next hop =>
        cases hop' : i.op with
        | phi dest ty incoming => exact absurd hop' (hop dest ty incoming)
        | _ => simp [hop', Operation.isPhi] at hphi
    · intro i hi dest ty incoming hop a
      obtain ⟨index, hindex⟩ := List.getElem?_of_mem hi
      have hnone := h i index hindex
      rw [hop] at hnone
      have hsame : sameMembers (incoming.map Prod.snd) (f.predecessors b) = true := by
        by_contra hnot
        simp [hnot] at hnone
      rw [← mem_predecessors]
      exact sameMembers_iff.mp hsame a
  · rintro ⟨hfirst, hsources⟩ i index hi
    obtain ⟨hlt, rfl⟩ := List.getElem?_eq_some_iff.mp hi
    split
    next dest ty incoming hop =>
      have hall : ((block.instructions.take index).all (·.op.isPhi)) = true := by
        rw [List.all_eq_true]
        refine hfirst _ block.instructions[index] (block.instructions.drop (index + 1)) ?_ ?_
        · rw [← List.drop_eq_getElem_cons hlt, List.take_append_drop]
        · rw [hop]
          rfl
      have hsame : sameMembers (incoming.map Prod.snd) (f.predecessors b) = true := by
        rw [sameMembers_iff]
        intro a
        rw [mem_predecessors]
        exact hsources _ (List.getElem_mem hlt) dest ty incoming hop a
      rw [hall, hsame]
      rfl
    next => rfl

theorem invalidTargets_eq_nil_iff :
    f.invalidTargets = [] ↔ ∀ a b, b ∈ f.successors a → b < f.blocks.length := by
  simp only [invalidTargets, List.flatMap_eq_nil_iff, Prod.forall, List.mem_zipIdx_iff_getElem?,
    List.map_eq_nil_iff, List.filter_eq_nil_iff, mem_successors, block?, hasBlock]
  constructor
  · rintro h a b ⟨block, hblock, hb⟩
    simpa using h block a hblock b hb
  · intro h block a hblock b hb
    simpa using h a b ⟨block, hblock, hb⟩

/-- What is read is read by an instruction, a phi or a terminator of some block. -/
theorem forall_reads_iff {P : BlockId → List Instruction → ValueId → Prop} :
    (∀ b done x, f.Reads b done (.var x) → P b done x) ↔
      ∀ b block, f.block? b = some block →
        (∀ before i after, block.instructions = before ++ i :: after → i.op.isPhi = false →
          ∀ x, .var x ∈ i.op.operands → P b before x) ∧
        (∀ i ∈ block.instructions, ∀ dest ty incoming, i.op = .phi dest ty incoming →
          ∀ x source, (.var x, source) ∈ incoming → P source (f.body source) x) ∧
        ∀ x, .var x ∈ block.terminator.operands → P b block.instructions x := by
  constructor
  · intro h b block hblock
    refine ⟨?_, ?_, ?_⟩
    · exact fun before i after hsplit hphi x hx => h _ _ _ (.instruction hblock hsplit hphi hx)
    · exact fun i hi dest ty incoming hop x source hx => h _ _ _ (.phi hblock hi hop hx)
    · exact fun x hx => h _ _ _ (.terminator hblock hx)
  · intro h b done x hreads
    cases hreads with
    | instruction hblock hsplit hphi hmem => exact (h _ _ hblock).1 _ _ _ hsplit hphi x hmem
    | terminator hblock hmem => exact (h _ _ hblock).2.2 x hmem
    | phi hblock hinstr hop hmem => exact (h _ _ hblock).2.1 _ hinstr _ _ _ hop x _ hmem

end Function

namespace Module

theorem bodyDefects_eq (m : Module) (f : Function) :
    m.bodyDefects f =
      (if (f.predecessors f.entry).isEmpty then [] else [.entryHasPredecessors f.name]) ++
      (f.blocks.zipIdx.flatMap fun (block, id) => f.phiDefects id block) ++
      (repeats f.defined).map (.multipleDefinitions f.name) ++
      (f.blocks.zipIdx.flatMap fun (block, id) => f.blockUseDefects f.dominatorTree id block) ++
      (f.blocks.zipIdx.flatMap fun (block, id) => m.blockDefects f id block) := by
  rw [← Function.definitions_map_fst]
  rfl

theorem predecessors_isEmpty_iff : (f.predecessors b).isEmpty = true ↔ ∀ a, b ∉ f.successors a := by
  rw [List.isEmpty_iff, List.eq_nil_iff_forall_not_mem]
  exact forall_congr' fun a => not_congr Function.mem_predecessors

/-- Nothing is wrong with the form of a function if its body is well formed. -/
theorem wellFormed_iff (hentry : f.entry < f.blocks.length) (htargets : f.invalidTargets = []) :
    f.WellFormed ↔ (f.predecessors f.entry).isEmpty = true ∧
      (f.blocks.zipIdx.flatMap fun (block, id) => f.phiDefects id block) = [] ∧
      repeats f.defined = [] ∧
      (f.blocks.zipIdx.flatMap fun (block, id) =>
        f.blockUseDefects f.dominatorTree id block) = [] := by
  have hblocks : ∀ {P : BlockId → Block → List Defect},
      (f.blocks.zipIdx.flatMap fun (block, id) => P id block) = [] ↔
        ∀ b block, f.block? b = some block → P b block = [] := by
    intro P
    simp only [List.flatMap_eq_nil_iff, Prod.forall, List.mem_zipIdx_iff_getElem?]
    exact ⟨fun h b block hblock => h block b hblock, fun h block b hblock => h b block hblock⟩
  rw [predecessors_isEmpty_iff, hblocks, hblocks, repeats_eq_nil_iff]
  simp only [Function.phiDefects_eq_nil_iff]
  constructor
  · intro h
    refine ⟨h.entry_not_successor, fun b block hblock => ⟨?_, ?_⟩, h.nodup, ?_⟩
    · rw [← Function.body_eq hblock]
      exact h.phis_first b
    · rw [← Function.body_eq hblock]
      exact h.phi_sources b
    · intro b block hblock
      rw [Function.blockUseDefects_eq_nil_iff hentry h.nodup hblock]
      have hreads : ∀ b done x, f.Reads b done (.var x) → x ∈ f.defined ∧ f.Visible b done x :=
        fun b done x hx => ⟨h.reads_defined b done x hx, h.reads_visible b done x hx⟩
      exact Function.forall_reads_iff.mp hreads b block hblock
  · rintro ⟨hpred, hphi, hnodup, huse⟩
    have hreads : ∀ b done x, f.Reads b done (.var x) → x ∈ f.defined ∧ f.Visible b done x :=
      Function.forall_reads_iff.mpr fun b block hblock =>
        (Function.blockUseDefects_eq_nil_iff hentry hnodup hblock).mp (huse b block hblock)
    have hbody : ∀ b i, i ∈ f.body b → ∃ block, f.block? b = some block ∧
        f.body b = block.instructions := by
      intro b i hi
      obtain ⟨block, hblock, _⟩ := Function.block?_of_mem_body hi
      exact ⟨block, hblock, Function.body_eq hblock⟩
    refine ⟨hentry, Function.invalidTargets_eq_nil_iff.mp htargets, hpred, ?_, ?_, hnodup,
      fun b done x hx => (hreads b done x hx).1, fun b done x hx => (hreads b done x hx).2⟩
    · intro b before i after hsplit
      obtain ⟨block, hblock, heq⟩ := hbody b i (by simp [hsplit])
      rw [heq] at hsplit
      exact (hphi b block hblock).1 before i after hsplit
    · intro b i hi
      obtain ⟨block, hblock, heq⟩ := hbody b i hi
      rw [heq] at hi
      exact (hphi b block hblock).2 i hi

/-- A well-formed body has only defects of its references and its operations. -/
theorem functionDefects_of_wellFormed (m : Module) (h : f.WellFormed) :
    m.functionDefects f = f.blocks.zipIdx.flatMap fun (block, id) => m.blockDefects f id block := by
  have htargets := Function.invalidTargets_eq_nil_iff.mpr h.targets_lt
  obtain ⟨hpred, hphi, hrepeats, huse⟩ := (wellFormed_iff h.entry_lt htargets).mp h
  have hbody : f.isDeclaration = false := by
    cases hblocks : f.blocks with
    | nil => simpa [hblocks] using h.entry_lt
    | cons _ _ => simp [Function.isDeclaration, hblocks]
  have hhas : f.hasBlock f.entry = true := decide_eq_true h.entry_lt
  simp [functionDefects, hbody, hhas, htargets, bodyDefects_eq, hpred, hphi, hrepeats, huse]

theorem wellFormed_of_functionDefects {m : Module} (hbody : f.isDeclaration = false)
    (h : m.functionDefects f = []) : f.WellFormed := by
  unfold functionDefects at h
  rw [hbody] at h
  split at h
  next hdecl => cases hdecl
  split at h
  next => cases h
  next hhas =>
    split at h
    next htargets =>
      have hentry : f.entry < f.blocks.length := by simpa [Function.hasBlock] using hhas
      rw [bodyDefects_eq] at h
      simp only [List.append_eq_nil_iff, List.map_eq_nil_iff] at h
      obtain ⟨⟨⟨⟨hpred, hphi⟩, hrepeats⟩, huse⟩, _⟩ := h
      refine (wellFormed_iff hentry htargets).mpr ⟨?_, hphi, hrepeats, huse⟩
      by_contra hnot
      simp [hnot] at hpred
    next hne => exact absurd h hne

end Module

end Monolith

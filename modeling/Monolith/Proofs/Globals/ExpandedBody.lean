import Monolith.Proofs.Globals.ComputedOperands

/-! # Bodies with computed operands

Each instruction of a body is preceded by the code that computes its operands. What a phi
reads is computed at the end of the block that it is listed for. So control flow, phis and
old definitions stay as they are, and every new definition is passed before it is read: a
body that the module admits stays one.
-/

namespace Monolith

variable {edges : Edges} {i : Instruction} {old rest out code before : List Instruction}
  {b : BlockId} {incoming : List (Operand × BlockId)}

/-! ## Code at the ends of blocks -/

/-- Code that belongs at the ends of blocks. -/
abbrev Edges := List (BlockId × List Instruction)

namespace Edges

def single (b : BlockId) (code : List Instruction) : Edges :=
  if code.isEmpty then [] else [(b, code)]

def defs (edges : Edges) : List ValueId := edges.flatMap fun edge => defsOf edge.2

def tail (edges : Edges) (b : BlockId) : List Instruction :=
  (edges.filter fun edge => edge.1 = b).flatMap Prod.snd

def spill (edges : Edges) (blocks : List Block) : List Block :=
  edges.foldl (fun blocks edge =>
    blocks.modify edge.1 fun block => block.mapInstructions (· ++ edge.2)) blocks

theorem defs_single (b : BlockId) (code : List Instruction) :
    (single b code).defs = defsOf code := by
  cases code <;> simp [single, defs]

theorem defs_append (edges more : Edges) : defs (edges ++ more) = defs edges ++ defs more :=
  List.flatMap_append

theorem mem_single {edge : BlockId × List Instruction} (h : edge ∈ single b code) :
    edge = (b, code) := by
  unfold single at h
  split at h
  next => cases h
  next => exact List.mem_singleton.mp h

theorem mem_single_self (h : code ≠ []) : (b, code) ∈ single b code := by
  simp [single, h]

/-- Each block gets the code that is meant for it. -/
theorem getElem?_spill (edges : Edges) (blocks : List Block) (b : BlockId) :
    (edges.spill blocks)[b]? = blocks[b]?.map fun block =>
      block.mapInstructions (· ++ edges.tail b) := by
  induction edges generalizing blocks with
  | nil =>
      change blocks[b]? = _
      cases blocks[b]? <;> simp [tail, Block.mapInstructions]
  | cons edge edges ih =>
      change (spill edges _)[b]? = _
      rw [ih, List.getElem?_modify]
      by_cases h : edge.1 = b
      · cases blocks[b]? <;> simp [h, tail, Block.mapInstructions]
      · cases blocks[b]? <;> simp [h, tail, Block.mapInstructions]

theorem length_spill (edges : Edges) (blocks : List Block) :
    (edges.spill blocks).length = blocks.length := by
  induction edges generalizing blocks with
  | nil => rfl
  | cons edge edges ih => exact (ih _).trans (List.length_modify ..)

/-- Code at the ends of blocks defines what it does by itself. -/
theorem count_spill {blocks : List Block} (hlt : ∀ edge ∈ edges, edge.1 < blocks.length)
    (x : ValueId) :
    ((edges.spill blocks).flatMap Block.defs).count x =
      (blocks.flatMap Block.defs).count x + edges.defs.count x := by
  induction edges generalizing blocks with
  | nil => rfl
  | cons edge edges ih =>
      change ((spill edges _).flatMap Block.defs).count x = _
      have hedgeLt : edge.1 < blocks.length := hlt edge List.mem_cons_self
      have hedge := List.getElem?_eq_getElem hedgeLt
      have hmodify := count_flatMap_modify hedge
        (fun block => block.mapInstructions (· ++ edge.2)) x
      have happend : (blocks[edge.1].mapInstructions (· ++ edge.2)).defs =
          blocks[edge.1].defs ++ defsOf edge.2 := List.filterMap_append
      have hcons : defs (edge :: edges) = defsOf edge.2 ++ defs edges := List.flatMap_cons
      have ih := @ih (blocks.modify edge.1 fun block => block.mapInstructions (· ++ edge.2))
        (fun other hother => by simpa using hlt other (List.mem_cons_of_mem _ hother))
      rw [happend, List.count_append] at hmodify
      rw [ih, hcons, List.count_append]
      omega

theorem mem_tail (h : (b, code) ∈ edges) : code ⊆ edges.tail b := fun _ hi =>
  List.mem_flatMap.mpr ⟨(b, code), List.mem_filter.mpr ⟨h, decide_eq_true rfl⟩, hi⟩

end Edges

/-! ## Expanded instructions -/

/-- What a phi reads is computed at the ends of the blocks that it lists. -/
inductive ComputedIncoming (slots : Slots) : List ValueInfo → List (Operand × BlockId) → Edges →
    List (Operand × BlockId) → List ValueInfo → Prop where
  | nil {values : List ValueInfo} : ComputedIncoming slots values [] [] [] values
  | cons {values values' values'' : List ValueInfo} {o o' : Operand} {b : BlockId}
      {code : List Instruction} {incoming incoming' : List (Operand × BlockId)} {edges : Edges}
      (hfirst : Computed slots values o code o' values')
      (hrest : ComputedIncoming slots values' incoming edges incoming' values'') :
      ComputedIncoming slots values ((o, b) :: incoming) (Edges.single b code ++ edges)
        ((o', b) :: incoming') values''

/-- Each instruction is preceded by the code that computes its operands. -/
inductive Expanded (slots : Slots) : List ValueInfo → List Instruction → List Instruction →
    Edges → List ValueInfo → Prop where
  | nil {values : List ValueInfo} : Expanded slots values [] [] [] values
  | instruction {values values' values'' : List ValueInfo} {i : Instruction} {os : List Operand}
      {code rest out : List Instruction} {edges : Edges} (hphi : i.op.isPhi = false)
      (hcode : ComputedAll slots values i.op.operands code os values')
      (hrest : Expanded slots values' rest out edges values'') :
      Expanded slots values (i :: rest)
        (code ++ { i with op := i.op.withOperands os } :: out) edges values''
  | phi {values values' values'' : List ValueInfo} {i : Instruction} {dest : ValueId} {ty : Ty}
      {incoming incoming' : List (Operand × BlockId)} {rest out : List Instruction}
      {edges more : Edges} (hop : i.op = .phi dest ty incoming)
      (hincoming : ComputedIncoming slots values incoming edges incoming' values')
      (hrest : Expanded slots values' rest out more values'') :
      Expanded slots values (i :: rest) ({ i with op := .phi dest ty incoming' } :: out)
        (edges ++ more) values''

/-- Where an instruction of the expanded code comes from: it computes an operand, or stands
for an instruction of the old code. -/
inductive Origin (m : Module) (slots : Slots) (values values' : List ValueInfo) (edges : Edges)
    (old before : List Instruction) (i : Instruction) : Prop where
  | computed (h : Computes slots.Has (m.Keeps slots) values' before i)
  | instruction {front back : List Instruction} {j : Instruction} {os : List Operand}
      (hsplit : old = front ++ j :: back) (hphi : j.op.isPhi = false)
      (hdefs : defsOf front ⊆ defsOf before)
      (hos : List.Forall₂ (Replaces slots values values' before) j.op.operands os)
      (hi : i = { j with op := j.op.withOperands os })
  | phi {front back : List Instruction} {j : Instruction} {dest : ValueId} {ty : Ty}
      {incoming incoming' : List (Operand × BlockId)} (hsplit : old = front ++ j :: back)
      (hop : j.op = .phi dest ty incoming)
      (hincoming : List.Forall₂ (fun entry entry' => entry'.2 = entry.2 ∧
        ∃ code, (code = [] ∨ (entry.2, code) ∈ edges) ∧
          Replaces slots values values' code entry.1 entry'.1) incoming incoming')
      (hi : i = { j with op := .phi dest ty incoming' })

structure Traced (m : Module) (slots : Slots) (values values' : List ValueInfo) (edges : Edges)
    (old out : List Instruction) : Prop where
  grows : values <+: values'
  counts : ∀ x, (defsOf out).count x + edges.defs.count x =
    (defsOf old).count x + between values.length values'.length x
  defs : defsOf old ⊆ defsOf out
  computes : ∀ edge ∈ edges, ∀ before i after, edge.2 = before ++ i :: after →
    Computes slots.Has (m.Keeps slots) values' before i
  origin : ∀ before i after, out = before ++ i :: after →
    Origin m slots values values' edges old before i

section

variable {m : Module} {slots : Slots} {first values values' last : List ValueInfo}

/-- Where an instruction comes from does not depend on what is recorded later. -/
theorem Origin.mono {edges' : Edges} (h : Origin m slots values values' edges old before i)
    (hfirst : first <+: values) (hlast : values' <+: last) (hedges : edges ⊆ edges') :
    Origin m slots first last edges' old before i := by
  cases h with
  | computed h => exact .computed (h.mono hlast (List.Subset.refl _))
  | instruction hsplit hphi hdefs hos hi =>
      refine .instruction hsplit hphi hdefs (hos.imp fun _ _ ho => ?_) hi
      exact ho.mono hfirst (List.Subset.refl _) hlast
  | phi hsplit hop hincoming hi =>
      refine .phi hsplit hop (hincoming.imp fun entry entry' hentry => ?_) hi
      obtain ⟨hsource, code, hcode, hreplaces⟩ := hentry
      exact ⟨hsource, code, hcode.imp_right fun h => hedges h,
        hreplaces.mono hfirst (List.Subset.refl _) hlast⟩

/-- An instruction keeps its origin when another is put in front. -/
theorem Origin.cons (h : Origin m slots values values' edges old before i) {j : Instruction}
    {passed : List Instruction} (hj : ∀ x, j.op.dest? = some x → x ∈ defsOf passed) :
    Origin m slots values values' edges (j :: old) (passed ++ before) i := by
  have hbefore : defsOf before ⊆ defsOf (passed ++ before) := by
    rw [defsOf_append]
    exact List.subset_append_right _ _
  cases h with
  | computed h => exact .computed (h.mono List.prefix_rfl hbefore)
  | instruction hsplit hphi hdefs hos hi =>
      refine .instruction (by rw [hsplit, List.cons_append]) hphi ?_ (hos.imp fun _ _ ho => ?_) hi
      · intro x hx
        rw [defsOf_cons, List.mem_append, Option.mem_toList] at hx
        rcases hx with hx | hx
        · rw [defsOf_append]
          exact List.mem_append_left _ (hj x hx)
        · exact hbefore (hdefs hx)
      · exact ho.mono List.prefix_rfl (List.subset_append_right _ _) List.prefix_rfl
  | phi hsplit hop hincoming hi =>
      exact .phi (by rw [hsplit, List.cons_append]) hop hincoming hi

/-- A phi of the expanded code stands for a phi of the old code. -/
theorem Origin.of_phi (h : Origin m slots values values' edges old before i) {dest : ValueId}
    {ty : Ty} (hop : i.op = .phi dest ty incoming) :
    ∃ j ∈ old, ∃ listed, j.op = .phi dest ty listed ∧
      List.Forall₂ (fun entry entry' => entry'.2 = entry.2 ∧
        ∃ code, (code = [] ∨ (entry.2, code) ∈ edges) ∧
          Replaces slots values values' code entry.1 entry'.1) listed incoming := by
  cases h with
  | computed hcomputes =>
      have hphi := hcomputes.not_phi
      rw [hop] at hphi
      cases hphi
  | instruction _ hold _ _ hi =>
      have hphi : i.op.isPhi = false := by rw [hi]; simpa using hold
      rw [hop] at hphi
      cases hphi
  | @phi front back j dest' ty' listed incoming' hsplit hj hincoming hi =>
      have heq : Operation.phi dest' ty' incoming' = .phi dest ty incoming := by rw [← hop, hi]
      obtain ⟨rfl, rfl, rfl⟩ := Operation.phi.inj heq
      exact ⟨j, by simp [hsplit], listed, hj, hincoming⟩

/-- What a phi reads is replaced by what is computed for it. -/
theorem ComputedIncoming.spec {incoming' : List (Operand × BlockId)}
    (h : ComputedIncoming slots values incoming edges incoming' values')
    (hslots : ∀ id x, slots.lookup id = some x → Operand.typeIn values (.var x) = some .ptr)
    (hsupplies : ∀ c, .const c ∈ incoming.map Prod.fst → m.Supplies c) :
    values <+: values' ∧ (∀ x, edges.defs.count x = between values.length values'.length x) ∧
      (∀ edge ∈ edges, ∀ before i after, edge.2 = before ++ i :: after →
        Computes slots.Has (m.Keeps slots) values' before i) ∧
      List.Forall₂ (fun entry entry' => entry'.2 = entry.2 ∧
        ∃ code, (code = [] ∨ (entry.2, code) ∈ edges) ∧
          Replaces slots values values' code entry.1 entry'.1) incoming incoming' := by
  induction h with
  | nil =>
      exact ⟨List.prefix_rfl, fun x => (between_self _ x).symm, List.forall_mem_nil _, .nil⟩
  | @cons values values' values'' o o' b code incoming incoming' edges hfirst _ ih =>
      obtain ⟨hcode, hreplaces⟩ := hfirst.spec hslots fun c hc =>
        hsupplies c (hc ▸ List.mem_cons_self)
      obtain ⟨hgrows, hcounts, hedges, hrest⟩ := ih
        (fun id x hx => Operand.typeIn_of_prefix hcode.grows (hslots id x hx))
        (fun c hc => hsupplies c (List.mem_cons_of_mem _ hc))
      refine ⟨hcode.grows.trans hgrows, fun x => ?_, fun edge hedge => ?_, .cons ?_ ?_⟩
      · rw [Edges.defs_append, List.count_append, Edges.defs_single, hcode.counts, hcounts,
          between_add hcode.grows.length_le hgrows.length_le]
      · rcases List.mem_append.mp hedge with hedge | hedge
        · intro before i after hsplit
          rw [Edges.mem_single hedge] at hsplit
          exact (hcode.computes before i after hsplit).mono hgrows (List.Subset.refl _)
        · exact hedges edge hedge
      · refine ⟨rfl, code, ?_, hreplaces.mono List.prefix_rfl (List.Subset.refl _) hgrows⟩
        -- an edge is recorded only where there is code for it
        by_cases hnil : code = []
        · exact .inl hnil
        · exact .inr (List.mem_append_left _ (Edges.mem_single_self hnil))
      · refine hrest.imp fun entry entry' hentry => ?_
        obtain ⟨hsource, code, hin, hreplaces⟩ := hentry
        exact ⟨hsource, code, hin.imp_right (List.mem_append_right _),
          hreplaces.mono hcode.grows (List.Subset.refl _) List.prefix_rfl⟩

theorem Traced.nil : Traced m slots values values [] [] [] where
  grows := List.prefix_rfl
  counts x := by rw [between_self]; rfl
  defs := List.Subset.refl _
  computes := List.forall_mem_nil _
  origin before i after h := by cases before <;> cases h

/-- Expanded code can be traced after one more instruction. -/
theorem Traced.instruction {os : List Operand} (hphi : i.op.isPhi = false)
    (hcode : Emitted slots.Has (m.Keeps slots) first values code)
    (hos : List.Forall₂ (Replaces slots first values code) i.op.operands os)
    (hrest : Traced m slots values values' edges rest out) :
    Traced m slots first values' edges (i :: rest)
      (code ++ { i with op := i.op.withOperands os } :: out) := by
  have hdest : ∀ x, i.op.dest? = some x →
      x ∈ defsOf (code ++ [{ i with op := i.op.withOperands os }]) := fun x hx =>
    mem_defsOf.mpr ⟨_, List.mem_append_right _ (List.mem_singleton_self _), by simpa using hx⟩
  constructor
  case grows => exact hcode.grows.trans hrest.grows
  case counts =>
    intro x
    have hcounts := hrest.counts x
    have hsum := between_add hcode.grows.length_le hrest.grows.length_le x
    rw [defsOf_append, defsOf_cons, defsOf_cons, Operation.dest?_withOperands]
    simp only [List.count_append, hcode.counts]
    omega
  case defs =>
    intro x hx
    rw [defsOf_cons, List.mem_append, Option.mem_toList] at hx
    rw [← List.singleton_append, ← List.append_assoc, defsOf_append]
    exact hx.elim (fun hx => List.mem_append_left _ (hdest x hx))
      fun hx => List.mem_append_right _ (hrest.defs hx)
  case computes => exact hrest.computes
  case origin =>
    intro before j after hsplit
    rcases split_append hsplit with ⟨back, hback, _⟩ | ⟨back, rfl, hback⟩
    · exact .computed ((hcode.computes before j back hback).mono hrest.grows (List.Subset.refl _))
    · cases back with
      | nil =>
          obtain ⟨rfl, rfl⟩ := List.cons.inj hback
          refine .instruction (List.nil_append _).symm hphi (List.nil_subset _) ?_ rfl
          exact hos.imp fun _ _ ho =>
            ho.mono List.prefix_rfl (List.subset_append_left _ _) hrest.grows
      | cons head back =>
          obtain ⟨rfl, hrest'⟩ := List.cons.inj hback
          have horigin := (hrest.origin back j after hrest').cons hdest
          rw [List.append_assoc] at horigin
          exact horigin.mono hcode.grows List.prefix_rfl (List.Subset.refl _)

/-- It can be traced after one more phi. -/
theorem Traced.phi {dest : ValueId} {ty : Ty} {incoming' : List (Operand × BlockId)} {more : Edges}
    (hop : i.op = .phi dest ty incoming)
    (hincoming : ComputedIncoming slots first incoming edges incoming' values)
    (hslots : ∀ id x, slots.lookup id = some x → Operand.typeIn first (.var x) = some .ptr)
    (hsupplies : ∀ c, .const c ∈ i.op.operands → m.Supplies c)
    (hrest : Traced m slots values values' more rest out) :
    Traced m slots first values' (edges ++ more) (i :: rest)
      ({ i with op := .phi dest ty incoming' } :: out) := by
  rw [hop] at hsupplies
  obtain ⟨hgrows, hcounts, hcomputes, hentries⟩ := hincoming.spec hslots hsupplies
  have hdest : i.op.dest? = some dest := by rw [hop]; rfl
  have hdest' : defsOf [{ i with op := Operation.phi dest ty incoming' }] = [dest] := rfl
  constructor
  case grows => exact hgrows.trans hrest.grows
  case counts =>
    intro x
    have hcounts' := hrest.counts x
    have hsum := between_add hgrows.length_le hrest.grows.length_le x
    rw [defsOf_cons, defsOf_cons, Edges.defs_append, hdest]
    simp only [List.count_append, hcounts, Operation.dest?]
    omega
  case defs =>
    intro x hx
    rw [defsOf_cons, hdest] at hx
    rw [defsOf_cons]
    exact (List.mem_append.mp hx).elim (List.mem_append_left _)
      fun hx => List.mem_append_right _ (hrest.defs hx)
  case computes =>
    intro edge hedge before j after hsplit
    rcases List.mem_append.mp hedge with hedge | hedge
    · exact (hcomputes edge hedge before j after hsplit).mono hrest.grows (List.Subset.refl _)
    · exact hrest.computes edge hedge before j after hsplit
  case origin =>
    intro before j after hsplit
    cases before with
    | nil =>
        obtain ⟨rfl, rfl⟩ := List.cons.inj hsplit
        refine .phi (List.nil_append _).symm hop (hentries.imp fun entry entry' hentry => ?_) rfl
        obtain ⟨hsource, code, hin, hreplaces⟩ := hentry
        exact ⟨hsource, code, hin.imp_right (List.mem_append_left _),
          hreplaces.mono List.prefix_rfl (List.Subset.refl _) hrest.grows⟩
    | cons head before =>
        obtain ⟨rfl, hrest'⟩ := List.cons.inj hsplit
        have horigin := (hrest.origin before j after hrest').mono hgrows List.prefix_rfl
          (List.subset_append_right edges more)
        have hpassed : ∀ x, i.op.dest? = some x →
            x ∈ defsOf [{ i with op := Operation.phi dest ty incoming' }] := fun x hx => by
          rw [hdest', ← Option.some.inj (hdest.symm.trans hx)]
          exact List.mem_singleton_self _
        exact horigin.cons hpassed

/-- What is known of expanded code, by induction over the old code. -/
theorem Expanded.traced (h : Expanded slots values old out edges values')
    (hslots : ∀ id x, slots.lookup id = some x → Operand.typeIn values (.var x) = some .ptr)
    (hsupplies : ∀ i ∈ old, ∀ c, .const c ∈ i.op.operands → m.Supplies c) :
    Traced m slots values values' edges old out := by
  induction h with
  | nil => exact .nil
  | instruction hphi hcode _ ih =>
      obtain ⟨hcode, hos⟩ := hcode.spec hslots (hsupplies _ List.mem_cons_self)
      refine .instruction hphi hcode hos (ih ?_ fun j hj => hsupplies j (List.mem_cons_of_mem _ hj))
      exact fun id x hx => Operand.typeIn_of_prefix hcode.grows (hslots id x hx)
  | phi hop hincoming _ ih =>
      have hgrows := (hincoming.spec (m := m) hslots fun c hc =>
        hsupplies _ List.mem_cons_self c (by rw [hop]; exact hc)).1
      refine .phi hop hincoming hslots (hsupplies _ List.mem_cons_self)
        (ih ?_ fun j hj => hsupplies j (List.mem_cons_of_mem _ hj))
      exact fun id x hx => Operand.typeIn_of_prefix hgrows (hslots id x hx)

/-! ## Phis and preambles -/

def PhisFirst (instructions : List Instruction) : Prop :=
  ∀ before i after, instructions = before ++ i :: after → i.op.isPhi = true →
    ∀ j ∈ before, j.op.isPhi = true

theorem PhisFirst.tail (h : PhisFirst (i :: rest)) :
    PhisFirst rest := fun before j after hsplit hj k hk =>
  h (i :: before) j after (by rw [hsplit, List.cons_append]) hj k (List.mem_cons_of_mem _ hk)

theorem PhisFirst.no_phi (h : PhisFirst (i :: rest)) (hi : i.op.isPhi = false) :
    ∀ j ∈ rest, j.op.isPhi = false := by
  intro j hj
  by_contra hphi
  obtain ⟨before, after, rfl⟩ := List.append_of_mem hj
  have := h (i :: before) j after rfl (by simpa using hphi) i List.mem_cons_self
  rw [hi] at this
  cases this

theorem phisFirst_append {front back : List Instruction} (hfront : PhisFirst front)
    (hback : ∀ i ∈ back, i.op.isPhi = false) : PhisFirst (front ++ back) := by
  intro before i after hsplit hphi
  rcases split_append hsplit with ⟨rest, hfront', _⟩ | ⟨rest, _, hback'⟩
  · exact hfront before i rest hfront' hphi
  · rw [hback i (by simp [hback'])] at hphi
    cases hphi

theorem Origin.not_phi (h : Origin m slots values values' edges old before i)
    (hold : ∀ j ∈ old, j.op.isPhi = false) : i.op.isPhi = false := by
  cases h with
  | computed h => exact h.not_phi
  | instruction _ hphi _ _ hi =>
      rw [hi]
      simpa using hphi
  | @phi front back j dest ty incoming incoming' hsplit hop =>
      have := hold j (by simp [hsplit])
      rw [hop] at this
      cases this

/-- Phis stay in front, since their operands are computed elsewhere. -/
theorem Expanded.phisFirst (h : Expanded slots values old out edges values')
    (hslots : ∀ id x, slots.lookup id = some x → Operand.typeIn values (.var x) = some .ptr)
    (hsupplies : ∀ i ∈ old, ∀ c, .const c ∈ i.op.operands → m.Supplies c) (hold : PhisFirst old) :
    PhisFirst out := by
  induction h with
  | nil =>
      intro before i after hsplit
      cases before <;> cases hsplit
  | @instruction values values' values'' i os code rest out edges hphi hcode hrest ih =>
      have hnone : ∀ j ∈ i :: rest, j.op.isPhi = false :=
        List.forall_mem_cons.mpr ⟨hphi, hold.no_phi hphi⟩
      have htraced := (Expanded.instruction hphi hcode hrest).traced hslots hsupplies
      intro before j after hsplit hj
      rw [(htraced.origin before j after hsplit).not_phi hnone] at hj
      cases hj
  | phi hop hincoming _ ih =>
      have hgrows := (hincoming.spec (m := m) hslots fun c hc =>
        hsupplies _ List.mem_cons_self c (by rw [hop]; exact hc)).1
      have hrest := ih (fun id x hx => Operand.typeIn_of_prefix hgrows (hslots id x hx))
        (fun j hj => hsupplies j (List.mem_cons_of_mem _ hj)) hold.tail
      intro before j after hsplit hj k hk
      cases before with
      | nil => cases hk
      | cons head before =>
          obtain ⟨rfl, hsplit'⟩ := List.cons.inj hsplit
          rcases List.mem_cons.mp hk with rfl | hk
          · rfl
          · exact hrest before j after hsplit' hj k hk

theorem Operation.withOperands_nil {op : Operation} (h : op.operands = [])
    (hphi : op.isPhi = false) : op.withOperands [] = op := by
  cases op with
  | alloca => rfl
  | phi => cases hphi
  | _ => cases h

/-- Instructions without operands at the head stay there. -/
theorem Expanded.preamble {front : List Instruction}
    (h : Expanded slots values (front ++ rest) out edges values')
    (hfront : ∀ i ∈ front, i.op.operands = [] ∧ i.op.isPhi = false) :
    ∃ out', out = front ++ out' ∧ Expanded slots values rest out' edges values' := by
  induction front generalizing values out with
  | nil => exact ⟨out, rfl, h⟩
  | cons i front ih =>
      obtain ⟨hoperands, hphi⟩ := hfront i List.mem_cons_self
      cases h with
      | instruction _ hcode hrest =>
          rw [hoperands] at hcode
          cases hcode
          obtain ⟨out', rfl, hout⟩ := ih hrest fun j hj => hfront j (List.mem_cons_of_mem _ hj)
          refine ⟨out', ?_, hout⟩
          rw [Operation.withOperands_nil hoperands hphi]
          rfl
      | phi hop =>
          rw [hop] at hphi
          cases hphi

end

end Monolith

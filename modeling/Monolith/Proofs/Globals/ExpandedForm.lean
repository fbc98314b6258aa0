import Monolith.Proofs.Globals.ExpandedBody

/-! # The form of expanded bodies

A body in which operands are computed keeps its blocks, its control flow and its phis, and
every variable is still defined once and before it is read. The slots have to be defined
at the head of the entry, by instructions that read nothing.
-/

namespace Monolith

variable {b : BlockId} {x : ValueId} {code done : List Instruction} {i : Instruction}
  {address o : Operand} {ty : Ty}

namespace Operation

theorem mem_operands_of_address? {op : Operation} (h : op.address? = some address) :
    address ∈ op.operands := by
  cases op with
  | load | store | elementPtr =>
      obtain rfl := Option.some.inj h
      simp [operands]
  | _ => cases h

variable {op : Operation} {os : List Operand} {R : Operand → Operand → Prop}

/-- The address of an operation is replaced by what stands for it. -/
theorem address?_withOperands (h : List.Forall₂ R op.operands os)
    (haddress : (op.withOperands os).address? = some address) :
    ∃ old, op.address? = some old ∧ R old address := by
  cases op with
  | load _ _ old _ =>
      obtain _ | ⟨hfirst, _ | _⟩ := h
      obtain rfl := Option.some.inj haddress
      exact ⟨old, rfl, hfirst⟩
  | store _ old _ =>
      obtain _ | ⟨_, _ | ⟨hsecond, _ | _⟩⟩ := h
      obtain rfl := Option.some.inj haddress
      exact ⟨old, rfl, hsecond⟩
  | elementPtr _ _ old _ _ =>
      obtain _ | ⟨hfirst, _⟩ := h
      obtain rfl := Option.some.inj haddress
      exact ⟨old, rfl, hfirst⟩
  | call =>
      obtain _ | ⟨_, _⟩ := h
      cases haddress
  | binary | compare =>
      obtain _ | ⟨_, _ | ⟨_, _ | _⟩⟩ := h
      cases haddress
  | cast =>
      obtain _ | ⟨_, _ | _⟩ := h
      cases haddress
  | alloca | phi => cases haddress

theorem call_of_withOperands (h : List.Forall₂ R op.operands os) {dest : Option ValueId}
    {callee : Operand} {args : List Operand}
    (hop : op.withOperands os = .call dest ty callee args) :
    ∃ old args', op = .call dest ty old args' ∧ R old callee ∧ args'.length = args.length := by
  cases op with
  | call =>
      obtain _ | ⟨hfirst, hrest⟩ := h
      obtain ⟨rfl, rfl, rfl, rfl⟩ := Operation.call.inj hop
      exact ⟨_, _, rfl, hfirst, hrest.length_eq⟩
  | load | cast =>
      obtain _ | ⟨_, _ | _⟩ := h
      cases hop
  | store | binary | compare =>
      obtain _ | ⟨_, _ | ⟨_, _ | _⟩⟩ := h
      cases hop
  | elementPtr =>
      obtain _ | ⟨_, _⟩ := h
      cases hop
  | alloca | phi => cases hop

end Operation

/-! ## Expanded blocks -/

inductive ExpandedBlocks (slots : Slots) :
    List ValueInfo → List Block → List Block → Edges → List ValueInfo → Prop where
  | nil {values : List ValueInfo} : ExpandedBlocks slots values [] [] [] values
  | cons {values values' values'' last : List ValueInfo} {block : Block}
      {out code : List Instruction} {os : List Operand} {edges more : Edges}
      {blocks blocks' : List Block}
      (hbody : Expanded slots values block.instructions out edges values')
      (hend : ComputedAll slots values' block.terminator.operands code os values'')
      (hrest : ExpandedBlocks slots values'' blocks blocks' more last) :
      ExpandedBlocks slots values (block :: blocks)
        ({ block with
          instructions := out ++ code
          terminator := block.terminator.withOperands os } :: blocks') (edges ++ more) last

structure TracedBlock (m : Module) (slots : Slots) (values values' : List ValueInfo)
    (edges : Edges) (block block' : Block) : Prop where
  origin : ∀ before i after, block'.instructions = before ++ i :: after →
    Origin m slots values values' edges block.instructions before i
  defs : defsOf block.instructions ⊆ defsOf block'.instructions
  terminator : ∃ os, block'.terminator = block.terminator.withOperands os ∧
    List.Forall₂ (Replaces slots values values' block'.instructions)
      block.terminator.operands os
  phisFirst : PhisFirst block.instructions → PhisFirst block'.instructions
  preamble : ∀ front rest, block.instructions = front ++ rest →
    (∀ i ∈ front, i.op.operands = [] ∧ i.op.isPhi = false) →
      ∃ rest', block'.instructions = front ++ rest'

namespace TracedBlock

variable {m : Module} {slots : Slots} {first values values' last : List ValueInfo}
  {edges edges' : Edges} {block block' : Block}

theorem mono (h : TracedBlock m slots values values' edges block block')
    (hfirst : first <+: values) (hlast : values' <+: last) (hedges : edges ⊆ edges') :
    TracedBlock m slots first last edges' block block' where
  origin before i after hsplit := (h.origin before i after hsplit).mono hfirst hlast hedges
  defs := h.defs
  terminator := by
    obtain ⟨os, hterminator, hos⟩ := h.terminator
    exact ⟨os, hterminator, hos.imp fun _ _ ho => ho.mono hfirst (List.Subset.refl _) hlast⟩
  phisFirst := h.phisFirst
  preamble := h.preamble

/-- More code that computes something may stand at the end. -/
theorem append (h : TracedBlock m slots values values' edges block block')
    (hcode : ∀ before i after, code = before ++ i :: after →
      Computes slots.Has (m.Keeps slots) values' before i) :
    TracedBlock m slots values values' edges block (block'.mapInstructions (· ++ code)) where
  origin before i after hsplit := by
    rcases split_append hsplit with ⟨rest, hfront, _⟩ | ⟨rest, rfl, hback⟩
    · exact h.origin before i rest hfront
    · refine .computed ((hcode rest i after hback).mono List.prefix_rfl ?_)
      rw [defsOf_append]
      exact List.subset_append_right _ _
  defs x hx := by
    rw [Block.instructions_mapInstructions, defsOf_append]
    exact List.mem_append_left _ (h.defs hx)
  terminator := by
    obtain ⟨os, hterminator, hos⟩ := h.terminator
    exact ⟨os, hterminator, hos.imp fun _ _ ho =>
      ho.mono List.prefix_rfl (List.subset_append_left _ _) List.prefix_rfl⟩
  phisFirst hblock := by
    refine phisFirst_append (h.phisFirst hblock) fun i hi => ?_
    obtain ⟨before, after, hsplit⟩ := List.append_of_mem hi
    exact (hcode before i after hsplit).not_phi
  preamble front rest hsplit hfront := by
    obtain ⟨rest', hrest'⟩ := h.preamble front rest hsplit hfront
    exact ⟨rest' ++ code, by rw [Block.instructions_mapInstructions, hrest', List.append_assoc]⟩

theorem of_expanded {out : List Instruction} {os : List Operand}
    (hbody : Expanded slots first block.instructions out edges values)
    (hend : ComputedAll slots values block.terminator.operands code os values')
    (hslots : ∀ id x, slots.lookup id = some x → Operand.typeIn first (.var x) = some .ptr)
    (hsupplies : ∀ c, .const c ∈ block.operands → m.Supplies c) :
    Traced m slots first values edges block.instructions out ∧
      Emitted slots.Has (m.Keeps slots) values values' code ∧
      TracedBlock m slots first values' edges block
        { block with
          instructions := out ++ code
          terminator := block.terminator.withOperands os } := by
  have hinstructions : ∀ i ∈ block.instructions, ∀ c, .const c ∈ i.op.operands → m.Supplies c :=
    fun i hi c hc => hsupplies c (List.mem_append_left _ (List.mem_flatMap.mpr ⟨i, hi, hc⟩))
  have htraced := hbody.traced hslots hinstructions
  obtain ⟨hcode, hos⟩ := hend.spec
    (fun id x hx => Operand.typeIn_of_prefix htraced.grows (hslots id x hx))
    (fun c hc => hsupplies c (List.mem_append_right _ hc))
  refine ⟨htraced, hcode, ?_⟩
  constructor
  case origin =>
    intro before i after hsplit
    rcases split_append hsplit with ⟨rest, hfront, _⟩ | ⟨rest, rfl, hback⟩
    · exact (htraced.origin before i rest hfront).mono List.prefix_rfl hcode.grows
        (List.Subset.refl _)
    · refine .computed ((hcode.computes rest i after hback).mono List.prefix_rfl ?_)
      rw [defsOf_append]
      exact List.subset_append_right _ _
  case defs =>
    intro x hx
    rw [defsOf_append]
    exact List.mem_append_left _ (htraced.defs hx)
  case terminator =>
    refine ⟨os, rfl, hos.imp fun _ _ ho => ?_⟩
    exact ho.mono htraced.grows (List.subset_append_right _ _) List.prefix_rfl
  case phisFirst =>
    intro hphis
    refine phisFirst_append (hbody.phisFirst hslots hinstructions hphis) fun i hi => ?_
    obtain ⟨before, after, hsplit⟩ := List.append_of_mem hi
    exact (hcode.computes before i after hsplit).not_phi
  case preamble =>
    intro front rest hsplit hfront
    rw [hsplit] at hbody
    obtain ⟨out', rfl, _⟩ := hbody.preamble hfront
    exact ⟨out' ++ code, List.append_assoc _ _ _⟩

end TracedBlock

structure TracedBlocks (m : Module) (slots : Slots) (values values' : List ValueInfo)
    (edges : Edges) (blocks blocks' : List Block) : Prop where
  grows : values <+: values'
  length : blocks'.length = blocks.length
  counts : ∀ x, (blocks'.flatMap Block.defs).count x + edges.defs.count x =
    (blocks.flatMap Block.defs).count x + between values.length values'.length x
  computes : ∀ edge ∈ edges, ∀ before i after, edge.2 = before ++ i :: after →
    Computes slots.Has (m.Keeps slots) values' before i
  block : ∀ (b : BlockId) (block' : Block), blocks'[b]? = some block' →
    ∃ block, blocks[b]? = some block ∧ TracedBlock m slots values values' edges block block'

theorem ExpandedBlocks.traced {m : Module} {slots : Slots} {values values' : List ValueInfo}
    {blocks blocks' : List Block} {edges : Edges}
    (h : ExpandedBlocks slots values blocks blocks' edges values')
    (hslots : ∀ id x, slots.lookup id = some x → Operand.typeIn values (.var x) = some .ptr)
    (hsupplies : ∀ block ∈ blocks, ∀ c, .const c ∈ block.operands → m.Supplies c) :
    TracedBlocks m slots values values' edges blocks blocks' := by
  induction h with
  | nil =>
      exact
        { grows := List.prefix_rfl
          length := rfl
          counts := fun x => by rw [between_self]; rfl
          computes := List.forall_mem_nil _
          block := fun b block' hb => by cases hb }
  | @cons values values' values'' last block out code os edges more blocks blocks' hbody hend
      _ ih =>
      obtain ⟨htraced, hcode, hblock⟩ := TracedBlock.of_expanded hbody hend hslots
        (hsupplies block List.mem_cons_self)
      have hgrows := htraced.grows.trans hcode.grows
      have hrest := ih (fun id x hx => Operand.typeIn_of_prefix hgrows (hslots id x hx))
        (fun other hother => hsupplies other (List.mem_cons_of_mem _ hother))
      constructor
      case grows => exact hgrows.trans hrest.grows
      case length => rw [List.length_cons, List.length_cons, hrest.length]
      case counts =>
        intro x
        have hout : defsOf (out ++ code) = defsOf out ++ defsOf code := defsOf_append out code
        have hcounts := htraced.counts x
        have hmore := hrest.counts x
        have hfirst := between_add htraced.grows.length_le hcode.grows.length_le x
        have hsum := between_add hgrows.length_le hrest.grows.length_le x
        change (defsOf (out ++ code) ++ blocks'.flatMap Block.defs).count x +
          (Edges.defs (edges ++ more)).count x =
            (defsOf block.instructions ++ blocks.flatMap Block.defs).count x + _
        rw [hout, Edges.defs_append]
        simp only [List.count_append, hcode.counts]
        omega
      case computes =>
        intro edge hedge before i after hsplit
        rcases List.mem_append.mp hedge with hedge | hedge
        · exact (htraced.computes edge hedge before i after hsplit).mono
            (hcode.grows.trans hrest.grows) (List.Subset.refl _)
        · exact hrest.computes edge hedge before i after hsplit
      case block =>
        intro b block' hb
        cases b with
        | zero =>
            obtain rfl := Option.some.inj hb
            exact ⟨block, rfl, hblock.mono List.prefix_rfl hrest.grows
              (List.subset_append_left _ _)⟩
        | succ b =>
            obtain ⟨old, hold, htraced⟩ := hrest.block b block' hb
            exact ⟨old, hold, htraced.mono hgrows List.prefix_rfl (List.subset_append_right _ _)⟩

/-! ## Operands of functions -/

namespace Function

variable {f : Function}

theorem operands_subset {block : Block} (hb : f.block? b = some block) :
    block.operands ⊆ f.operands := fun _ ho =>
  List.mem_flatMap.mpr ⟨block, List.mem_of_getElem? hb, ho⟩

theorem operands_subset_of_mem (hi : i ∈ f.body b) : i.op.operands ⊆ f.operands := fun _ ho => by
  obtain ⟨block, hb, hi⟩ := block?_of_mem_body hi
  exact operands_subset hb (List.mem_append_left _ (List.mem_flatMap.mpr ⟨i, hi, ho⟩))

/-- A read comes after instructions of its block. -/
theorem Reads.done_subset (h : f.Reads b done o) : done ⊆ f.body b := by
  cases h with
  | instruction hblock hsplit =>
      rw [body_eq hblock, hsplit]
      exact List.subset_append_left _ _
  | terminator hblock =>
      rw [body_eq hblock]
      exact List.Subset.refl _
  | phi => exact List.Subset.refl _

end Function

/-- Operands have types, if what is defined is recorded. -/
theorem Module.Admits.exists_type {m : Module} {f : Function} (h : m.Admits f)
    (hrecorded : ∀ x ∈ f.defined, x < f.values.length) (ho : o ∈ f.operands) :
    ∃ ty, o.typeIn f.values = some ty := by
  cases o with
  | const c => exact ⟨_, rfl⟩
  | var x =>
      obtain ⟨b, block, hblock, ho⟩ := mem_operands_iff.mp ho
      obtain ⟨_, done, hreads⟩ := exists_reads hblock ho
      have hlt := hrecorded x (h.form.reads_defined _ done x hreads)
      exact ⟨_, congrArg (Option.map ValueInfo.ty) (List.getElem?_eq_getElem hlt)⟩

/-! ## Expanded functions -/

/-- A body that a module admits, with its operands computed from slots. -/
structure Expansion where
  module : Module
  slots : Slots
  body : Function
  blocks : List Block
  edges : Edges
  values : List ValueInfo
  expanded : ExpandedBlocks slots body.values body.blocks blocks edges values
  edges_lt : ∀ edge ∈ edges, edge.1 < body.blocks.length
  admits : module.Admits body
  recorded : ∀ x ∈ body.defined, x < body.values.length
  supplies : ∀ c, .const c ∈ body.operands → module.Supplies c
  /-- The instructions at the head of the entry that define the slots. -/
  allocas : List Instruction
  preamble : ∃ rest, body.body body.entry = allocas ++ rest
  allocas_plain : ∀ i ∈ allocas, i.op.operands = [] ∧ i.op.isPhi = false
  slots_defined : ∀ id x, slots.lookup id = some x → x ∈ defsOf allocas
  slots_typed : ∀ id x, slots.lookup id = some x →
    Operand.typeIn body.values (.var x) = some .ptr

namespace Expansion

variable (ex : Expansion)

def result : Function :=
  { ex.body with blocks := ex.edges.spill ex.blocks, values := ex.values }

theorem traced : TracedBlocks ex.module ex.slots ex.body.values ex.values ex.edges
    ex.body.blocks ex.blocks :=
  ex.expanded.traced ex.slots_typed fun block hblock c hc =>
    ex.supplies c (List.mem_flatMap.mpr ⟨block, hblock, hc⟩)

theorem length_result : ex.result.blocks.length = ex.body.blocks.length :=
  (Edges.length_spill ex.edges ex.blocks).trans ex.traced.length

/-- What stands at the end of a block computes something. -/
theorem computes_tail (b : BlockId) (before : List Instruction) (i : Instruction)
    (after : List Instruction) (hsplit : ex.edges.tail b = before ++ i :: after) :
    Computes ex.slots.Has (ex.module.Keeps ex.slots) ex.values before i := by
  have hcodes : ∀ code ∈ (ex.edges.filter fun edge => edge.1 = b).map Prod.snd,
      ∀ before i after, code = before ++ i :: after →
        Computes ex.slots.Has (ex.module.Keeps ex.slots) ex.values before i := by
    intro code hcode
    obtain ⟨edge, hedge, rfl⟩ := List.mem_map.mp hcode
    exact ex.traced.computes edge (List.mem_of_mem_filter hedge)
  rw [Edges.tail, List.flatMap_def] at hsplit
  generalize (ex.edges.filter fun edge => edge.1 = b).map Prod.snd = codes at hcodes hsplit
  induction codes generalizing before with
  | nil => cases before <;> cases hsplit
  | cons code codes ih =>
      rw [List.flatten_cons] at hsplit
      rcases split_append hsplit with ⟨rest, hcode, _⟩ | ⟨rest, rfl, hrest⟩
      · exact hcodes code List.mem_cons_self before i rest hcode
      · have hcodes' := fun code hcode => hcodes code (List.mem_cons_of_mem _ hcode)
        refine (ih rest hcodes' hrest).mono List.prefix_rfl ?_
        rw [defsOf_append]
        exact List.subset_append_right _ _

theorem exists_block {block' : Block} (h : ex.result.block? b = some block') :
    ∃ block, ex.body.block? b = some block ∧
      TracedBlock ex.module ex.slots ex.body.values ex.values ex.edges block block' := by
  change (ex.edges.spill ex.blocks)[b]? = some block' at h
  rw [Edges.getElem?_spill] at h
  obtain ⟨expanded, hexpanded, rfl⟩ := Option.map_eq_some_iff.mp h
  obtain ⟨block, hblock, htraced⟩ := ex.traced.block b expanded hexpanded
  exact ⟨block, hblock, htraced.append (ex.computes_tail b)⟩

theorem exists_result {block : Block} (h : ex.body.block? b = some block) :
    ∃ block', ex.result.block? b = some block' ∧
      TracedBlock ex.module ex.slots ex.body.values ex.values ex.edges block block' := by
  have hlt : b < ex.result.blocks.length := by
    rw [ex.length_result]
    exact (List.getElem?_eq_some_iff.mp h).1
  have hb : ex.result.block? b = some ex.result.blocks[b] := List.getElem?_eq_getElem hlt
  obtain ⟨old, hold, htraced⟩ := ex.exists_block hb
  obtain rfl := Option.some.inj (h.symm.trans hold)
  exact ⟨_, hb, htraced⟩

/-! ## Control flow and phis -/

theorem successors_result (a : BlockId) : ex.result.successors a = ex.body.successors a := by
  unfold Function.successors
  cases hb : ex.body.block? a with
  | none =>
      have hnone : ex.result.block? a = none := by
        rw [Function.block?, List.getElem?_eq_none_iff, ex.length_result]
        exact List.getElem?_eq_none_iff.mp hb
      rw [hnone]
  | some block =>
      obtain ⟨block', hb', htraced⟩ := ex.exists_result hb
      obtain ⟨os, hterminator, _⟩ := htraced.terminator
      rw [hb', Option.map_some, Option.map_some, hterminator, Terminator.targets_withOperands]

theorem edge_result_iff {a : BlockId} : ex.result.Edge a b ↔ ex.body.Edge a b := by
  rw [Function.edge_iff, Function.edge_iff, successors_result, length_result]

/-- Control goes the same ways. -/
theorem walk_result_iff {walk : List BlockId} : ex.result.Walk walk ↔ ex.body.Walk walk := by
  have hedge : ex.result.Edge = ex.body.Edge :=
    funext₂ fun a b => propext ex.edge_result_iff
  unfold Function.Walk
  rw [hedge]
  rfl

theorem body_of_block? {block : Block} (h : ex.body.block? b = some block) :
    ∃ block', ex.result.block? b = some block' ∧ ex.result.body b = block'.instructions ∧
      TracedBlock ex.module ex.slots ex.body.values ex.values ex.edges block block' := by
  obtain ⟨block', hb', htraced⟩ := ex.exists_result h
  exact ⟨block', hb', Function.body_eq hb', htraced⟩

theorem defs_body (b : BlockId) : defsOf (ex.body.body b) ⊆ defsOf (ex.result.body b) := by
  cases hb : ex.body.block? b with
  | none =>
      simp [Function.body, hb]
  | some block =>
      obtain ⟨block', _, hbody, htraced⟩ := ex.body_of_block? hb
      rw [hbody, Function.body_eq hb]
      exact htraced.defs

/-- The code for the end of a block is there. -/
theorem tail_subset (h : (b, code) ∈ ex.edges) : code ⊆ ex.result.body b := by
  have hlt : b < ex.blocks.length := by
    rw [ex.traced.length]
    exact ex.edges_lt _ h
  have hb : ex.result.block? b = some (ex.blocks[b].mapInstructions (· ++ ex.edges.tail b)) := by
    change (ex.edges.spill ex.blocks)[b]? = _
    rw [Edges.getElem?_spill, List.getElem?_eq_getElem hlt]
    rfl
  rw [Function.body_eq hb, Block.instructions_mapInstructions]
  exact fun i hi => List.mem_append_right _ (Edges.mem_tail h hi)

/-- The slots are defined at the head of the entry. -/
theorem entry_eq : ∃ rest, ex.result.body ex.body.entry = ex.allocas ++ rest := by
  obtain ⟨rest, hpreamble⟩ := ex.preamble
  have hlt : ex.body.entry < ex.body.blocks.length := ex.admits.form.entry_lt
  have hb : ex.body.block? ex.body.entry = some ex.body.blocks[ex.body.entry] :=
    List.getElem?_eq_getElem hlt
  obtain ⟨block', _, hbody, htraced⟩ := ex.body_of_block? hb
  rw [Function.body_eq hb] at hpreamble
  rw [hbody]
  exact htraced.preamble _ rest hpreamble ex.allocas_plain

/-! ## Reads -/

/-- What is read in the result: what was read there before, or a slot, or what the code
before the read defines. -/
inductive Source (b : BlockId) (done : List Instruction) (x : ValueId) : Prop where
  | old {front : List Instruction} (hreads : ex.body.Reads b front (.var x))
      (hdefs : defsOf front ⊆ defsOf done)
  | slot (hslot : x ∈ defsOf ex.allocas)
      (hentry : b = ex.body.entry → defsOf ex.allocas ⊆ defsOf done)
  | done (hdone : x ∈ defsOf done)

theorem source_of_replaces (h : Replaces ex.slots ex.body.values ex.values code o (.var x))
    (hcode : code ⊆ done)
    (hold : o = .var x → ∃ front, ex.body.Reads b front (.var x) ∧ defsOf front ⊆ defsOf done)
    (hentry : b = ex.body.entry → defsOf ex.allocas ⊆ defsOf done) : ex.Source b done x := by
  rcases h.read x rfl with hsame | ⟨id, hslot⟩ | hx
  · obtain ⟨front, hreads, hdefs⟩ := hold hsame
    exact .old hreads hdefs
  · exact .slot (ex.slots_defined id x hslot) hentry
  · exact .done (Function.defsOf_subset hcode hx)

/-- Before an instruction that reads something, the slots are defined. -/
theorem allocas_before {before after : List Instruction}
    (hsplit : ex.result.body b = before ++ i :: after) (hx : .var x ∈ i.op.operands)
    (hb : b = ex.body.entry) : defsOf ex.allocas ⊆ defsOf before := by
  subst hb
  obtain ⟨rest, hentry⟩ := ex.entry_eq
  rw [hentry] at hsplit
  rcases split_append hsplit with ⟨_, hallocas, _⟩ | ⟨_, rfl, _⟩
  · rw [(ex.allocas_plain i (by simp [hallocas])).1] at hx
    cases hx
  · rw [defsOf_append]
    exact List.subset_append_left _ _

theorem allocas_body (hb : b = ex.body.entry) : defsOf ex.allocas ⊆ defsOf (ex.result.body b) := by
  subst hb
  obtain ⟨rest, hentry⟩ := ex.entry_eq
  rw [hentry, defsOf_append]
  exact List.subset_append_left _ _

/-- Every read in the result has one of these sources. -/
theorem source_of_reads (h : ex.result.Reads b done (.var x)) : ex.Source b done x := by
  cases h with
  | @instruction _ block' before after i _ hblock hsplit hphi hmem =>
      obtain ⟨block, hb, htraced⟩ := ex.exists_block hblock
      have hentry := ex.allocas_before (by rw [Function.body_eq hblock, hsplit]) hmem
      cases htraced.origin done i after hsplit with
      | computed hcomputes =>
          rcases hcomputes.reads x hmem with ⟨id, hslot⟩ | hx
          · exact .slot (ex.slots_defined id x hslot) hentry
          · exact .done hx
      | @instruction front back j os hold hphi hdefs hos hi =>
          rw [hi] at hmem
          rw [Operation.operands_withOperands hos.length_eq.symm] at hmem
          obtain ⟨o, ho, hreplaces⟩ := exists_forall₂_right hos hmem
          refine ex.source_of_replaces hreplaces (List.Subset.refl _) ?_ hentry
          rintro rfl
          exact ⟨front, .instruction hb hold hphi ho, hdefs⟩
      | phi _ _ _ hi =>
          rw [hi] at hphi
          cases hphi
  | @terminator _ block' _ hblock hmem =>
      obtain ⟨block, hb, htraced⟩ := ex.exists_block hblock
      obtain ⟨os, hterminator, hos⟩ := htraced.terminator
      rw [hterminator, Terminator.operands_withOperands hos.length_eq.symm] at hmem
      obtain ⟨o, ho, hreplaces⟩ := exists_forall₂_right hos hmem
      rw [← Function.body_eq hblock] at hreplaces ⊢
      refine ex.source_of_replaces hreplaces (List.Subset.refl _) ?_ ex.allocas_body
      rintro rfl
      refine ⟨_, .terminator hb ho, ?_⟩
      rw [Function.body_eq hblock]
      exact htraced.defs
  | @phi b' _ block' i dest ty incoming _ hblock hi hop hmem =>
      obtain ⟨block, hb, htraced⟩ := ex.exists_block hblock
      obtain ⟨before, after, hsplit⟩ := List.append_of_mem hi
      obtain ⟨j, hj, old, hold, hincoming⟩ := (htraced.origin before i after hsplit).of_phi hop
      -- what computes the operand stands at the end of the block that it is listed for
      obtain ⟨⟨o, source⟩, ho, hsource, code, hcode, hreplaces⟩ :=
        exists_forall₂_right hincoming hmem
      obtain rfl : b = source := hsource
      refine ex.source_of_replaces hreplaces ?_ ?_ ex.allocas_body
      · rcases hcode with rfl | hcode
        · exact List.nil_subset _
        · exact ex.tail_subset hcode
      · rintro rfl
        exact ⟨_, .phi hb hj hold ho, ex.defs_body b⟩

/-! ## The form of the result -/

/-- New variables are defined once, and old ones as before. -/
theorem count_defined (x : ValueId) : ex.result.defined.count x =
    ex.body.defined.count x + between ex.body.values.length ex.values.length x := by
  have hlt : ∀ edge ∈ ex.edges, edge.1 < ex.blocks.length := fun edge hedge => by
    rw [ex.traced.length]
    exact ex.edges_lt edge hedge
  have hspill := Edges.count_spill hlt x
  have hcounts := ex.traced.counts x
  change (ex.body.parameters ++ (ex.edges.spill ex.blocks).flatMap Block.defs).count x =
    (ex.body.parameters ++ ex.body.blocks.flatMap Block.defs).count x + _
  rw [List.count_append, List.count_append, hspill]
  omega

theorem nodup_result : ex.result.defined.Nodup :=
  nodup_of_count_between ex.admits.form.nodup ex.recorded ex.count_defined

theorem mem_defined_of_old (h : x ∈ ex.body.defined) : x ∈ ex.result.defined := by
  rw [← List.count_pos_iff] at h ⊢
  rw [ex.count_defined]
  omega

theorem mem_defined_of_body (h : x ∈ defsOf (ex.result.body b)) : x ∈ ex.result.defined :=
  List.mem_append_right _ (Function.mem_defs_of_body h)

theorem reads_defined (h : ex.result.Reads b done (.var x)) : x ∈ ex.result.defined := by
  cases ex.source_of_reads h with
  | old hreads => exact ex.mem_defined_of_old (ex.admits.form.reads_defined b _ x hreads)
  | slot hslot => exact ex.mem_defined_of_body (ex.allocas_body rfl hslot)
  | done hdone => exact ex.mem_defined_of_body (Function.defsOf_subset h.done_subset hdone)

/-- What is read is defined on every walk. -/
theorem reads_visible (h : ex.result.Reads b done (.var x)) : ex.result.Visible b done x := by
  intro rest hwalk
  cases ex.source_of_reads h with
  | old hreads hdefs =>
      have hold := ex.admits.form.reads_visible b _ x hreads rest (ex.walk_result_iff.mp hwalk)
      rcases hold with hparameter | hx | ⟨d, hd, hx⟩
      · exact .inl hparameter
      · exact .inr (.inl (hdefs hx))
      · exact .inr (.inr ⟨d, hd, ex.defs_body d hx⟩)
  | slot hslot hentry =>
      -- every walk starts at the entry, where the slots are defined
      rcases List.mem_cons.mp hwalk.start_mem with hb | hrest
      · exact .inr (.inl (hentry hb.symm hslot))
      · exact .inr (.inr ⟨_, hrest, ex.allocas_body rfl hslot⟩)
  | done hdone => exact .inr (.inl hdone)

theorem phis_first : PhisFirst (ex.result.body b) := by
  cases hb : ex.result.block? b with
  | none =>
      intro before i after hsplit
      simp [Function.body, hb] at hsplit
  | some block' =>
      obtain ⟨block, hold, htraced⟩ := ex.exists_block hb
      rw [Function.body_eq hb]
      refine htraced.phisFirst ?_
      rw [← Function.body_eq hold]
      exact ex.admits.form.phis_first b

/-- A phi of the result stands for one that lists the same blocks. -/
theorem exists_phi (hi : i ∈ ex.result.body b) {dest : ValueId}
    {incoming : List (Operand × BlockId)} (hop : i.op = .phi dest ty incoming) :
    ∃ j ∈ ex.body.body b, ∃ old, j.op = .phi dest ty old ∧
      incoming.map Prod.snd = old.map Prod.snd := by
  obtain ⟨block', hblock', hi⟩ := Function.block?_of_mem_body hi
  obtain ⟨block, hblock, htraced⟩ := ex.exists_block hblock'
  obtain ⟨before, after, hsplit⟩ := List.append_of_mem hi
  obtain ⟨j, hj, old, hold, hincoming⟩ := (htraced.origin before i after hsplit).of_phi hop
  refine ⟨j, by rwa [Function.body_eq hblock], old, hold, ?_⟩
  have hsources : List.Forall₂ (· = ·) (old.map Prod.snd) (incoming.map Prod.snd) :=
    List.forall₂_map_left_iff.mpr (List.forall₂_map_right_iff.mpr
      (hincoming.imp fun _ _ hentry => hentry.1.symm))
  rw [List.forall₂_eq_eq_eq] at hsources
  exact hsources.symm

/-- The body stays well formed. -/
theorem wellFormed_result : ex.result.WellFormed where
  entry_lt := by
    rw [ex.length_result]
    exact ex.admits.form.entry_lt
  targets_lt a b hb := by
    rw [ex.length_result]
    rw [ex.successors_result] at hb
    exact ex.admits.form.targets_lt a b hb
  entry_not_successor a := by
    rw [ex.successors_result]
    exact ex.admits.form.entry_not_successor a
  phis_first _ := ex.phis_first
  phi_sources b i hi dest ty incoming hop a := by
    obtain ⟨j, hj, old, hold, hsources⟩ := ex.exists_phi hi hop
    rw [hsources, ex.successors_result]
    exact ex.admits.form.phi_sources b j hj dest ty old hold a
  nodup := ex.nodup_result
  reads_defined _ _ _ := ex.reads_defined
  reads_visible _ _ _ := ex.reads_visible

/-! ## Operands of the result -/

theorem const_of_replaces {os os' : List Operand}
    (h : List.Forall₂ (Replaces ex.slots ex.body.values ex.values code) os os')
    (hos : os ⊆ ex.body.operands) {c : Constant} (hc : .const c ∈ os') :
    ex.module.Holds c ∧ ∀ id ∈ c.globals, ex.slots.lookup id = none := by
  obtain ⟨o, ho, hreplaces⟩ := exists_forall₂_right h hc
  obtain ⟨rfl, hnone⟩ := hreplaces.kept c rfl
  exact ⟨ex.admits.operands c (hos ho), hnone⟩

/-- Constants of the result refer to what the module holds, and to no global with a slot. -/
theorem holds_of_operand {c : Constant} (hc : .const c ∈ ex.result.operands) :
    ex.module.Holds c ∧ ∀ id ∈ c.globals, ex.slots.lookup id = none := by
  obtain ⟨b, block', hblock', hc⟩ := Module.mem_operands_iff.mp hc
  obtain ⟨block, hb, htraced⟩ := ex.exists_block hblock'
  rcases List.mem_append.mp hc with hinstruction | hterminator
  · obtain ⟨i, hi, hc⟩ := List.mem_flatMap.mp hinstruction
    obtain ⟨before, after, hsplit⟩ := List.append_of_mem hi
    cases htraced.origin before i after hsplit with
    | computed hcomputes => exact hcomputes.holds c hc
    | @instruction front back j os hold _ _ hos heq =>
        rw [heq, Operation.operands_withOperands hos.length_eq.symm] at hc
        have hj : j ∈ ex.body.body b := by simp [Function.body_eq hb, hold]
        exact ex.const_of_replaces hos (Function.operands_subset_of_mem hj) hc
    | @phi front back j dest ty old new hold hop hincoming heq =>
        rw [heq] at hc
        obtain ⟨⟨_, source⟩, hentry, rfl⟩ := List.mem_map.mp hc
        obtain ⟨⟨o, _⟩, ho, _, _, _, hreplaces⟩ := exists_forall₂_right hincoming hentry
        obtain ⟨rfl, hnone⟩ := hreplaces.kept c rfl
        refine ⟨ex.admits.operands c ?_, hnone⟩
        have hj : j ∈ ex.body.body b := by simp [Function.body_eq hb, hold]
        refine Function.operands_subset_of_mem hj ?_
        rw [hop]
        exact List.mem_map.mpr ⟨_, ho, rfl⟩
  · obtain ⟨os, hwith, hos⟩ := htraced.terminator
    rw [hwith, Terminator.operands_withOperands hos.length_eq.symm] at hterminator
    exact ex.const_of_replaces hos
      (fun o ho => Function.operands_subset hb (List.mem_append_right _ ho)) hterminator

theorem pointers_result (hi : i ∈ ex.result.body b) (haddress : i.op.address? = some address) :
    address.typeIn ex.values = some .ptr := by
  obtain ⟨block', hblock', hi⟩ := Function.block?_of_mem_body hi
  obtain ⟨block, hb, htraced⟩ := ex.exists_block hblock'
  obtain ⟨before, after, hsplit⟩ := List.append_of_mem hi
  cases htraced.origin before i after hsplit with
  | computed hcomputes => exact hcomputes.pointers address haddress
  | @instruction front back j os hold _ _ hos heq =>
      rw [heq] at haddress
      obtain ⟨old, hold', hreplaces⟩ := Operation.address?_withOperands hos haddress
      have hj : j ∈ ex.body.body b := by simp [Function.body_eq hb, hold]
      obtain ⟨ty, hty⟩ := ex.admits.exists_type ex.recorded
        (Function.operands_subset_of_mem hj (Operation.mem_operands_of_address? hold'))
      have hptr : ty = .ptr := by
        refine ex.admits.pointers b j hj old hold' ty ?_
        rw [Function.operandType?_eq]
        exact hty
      rw [hptr] at hty
      exact hreplaces.typed .ptr hty
  | phi _ _ _ heq =>
      rw [heq] at haddress
      cases haddress

/-- The calls of the result fit. -/
theorem calls_result (hi : i ∈ ex.result.body b) {dest : Option ValueId} {callee : Operand}
    {args : List Operand} (hop : i.op = .call dest ty callee args) :
    ex.module.CallFits callee args := by
  obtain ⟨block', hblock', hi⟩ := Function.block?_of_mem_body hi
  obtain ⟨block, hb, htraced⟩ := ex.exists_block hblock'
  obtain ⟨before, after, hsplit⟩ := List.append_of_mem hi
  cases htraced.origin before i after hsplit with
  | computed hcomputes =>
      have := hcomputes.not_call
      rw [hop] at this
      cases this
  | @instruction front back j os hold _ _ hos heq =>
      rw [heq] at hop
      obtain ⟨old, args', hcall, hreplaces, hlength⟩ := Operation.call_of_withOperands hos hop
      have hj : j ∈ ex.body.body b := by simp [Function.body_eq hb, hold]
      have hfits := ex.admits.calls b j hj dest ty old args' hcall
      refine ⟨fun ty' hpoison => ?_, fun id g hid => ?_⟩
      · exact hfits.not_poison ty' (hreplaces.kept _ hpoison).1
      · rw [← hlength]
        exact hfits.arity id g (hreplaces.kept _ hid).1
  | phi _ _ _ heq =>
      rw [heq] at hop
      cases hop

end Expansion

end Monolith

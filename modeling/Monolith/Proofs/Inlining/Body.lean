import Mathlib.Data.List.Infix
import Monolith.Proofs.Inlining.CopiedNames

/-! # The body after inlining

An inlining is a call in a body, of a function with a body. The body that it gives
has the blocks of the caller, the block where control goes on after the call, and
the copies of the blocks of the callee, in this order.
-/

namespace Monolith

variable {b c : BlockId} {block : Block} {f : Function} {i : Instruction}

namespace Function

theorem block_eq_ok (h : f.block? b = some block) : f.block b = .ok block := by
  have hget : f.blocks[b]? = some block := h
  simp [Function.block, entryAt, hget]

/-- Only what becomes of the block itself matters for how it is changed. -/
theorem modify_congr {blocks : List Block} (hblock : blocks[b]? = some block) {g h : Block → Block}
    (heq : g block = h block) : blocks.modify b g = blocks.modify b h := by
  apply List.ext_getElem?
  intro a
  rcases eq_or_ne b a with rfl | hne
  · simp [hblock, heq]
  · simp [hne]

/-- Changing blocks one by one changes all of them, if the others would not change
and a second change does nothing. -/
theorem foldl_mapBlock {F : Block → Block} (hidem : ∀ block, F (F block) = F block)
    (targets : List BlockId) (f : Function)
    (hother : ∀ b block, f.block? b = some block → b ∉ targets → F block = block) :
    targets.foldl (fun f target => f.mapBlock target F) f =
      { f with blocks := f.blocks.map F } := by
  induction targets generalizing f with
  | nil =>
      have hall : ∀ block ∈ f.blocks, F block = block := by
        intro block hblock
        obtain ⟨b, hb⟩ := List.getElem?_of_mem hblock
        exact hother b block hb List.not_mem_nil
      rw [List.foldl_nil, List.map_congr_left hall, List.map_id']
  | cons target targets ih =>
      have hmap : (f.blocks.modify target F).map F = f.blocks.map F := by
        apply List.ext_getElem?
        intro b
        rcases eq_or_ne target b with rfl | hne
        · cases hblock : f.blocks[target]? with
          | none => simp [hblock]
          | some block => simp [hblock, hidem]
        · rw [List.getElem?_map, List.getElem?_map, List.getElem?_modify_ne _ _ hne]
      rw [List.foldl_cons, ih]
      · exact congrArg (fun blocks => { f with blocks }) hmap
      · intro b block hblock hb
        change (f.blocks.modify target F)[b]? = some block at hblock
        rcases eq_or_ne target b with rfl | hne
        · simp only [List.getElem?_modify, if_true, Option.map_eq_map] at hblock
          obtain ⟨old, _, rfl⟩ := Option.map_eq_some_iff.mp hblock
          exact hidem old
        · rw [List.getElem?_modify_ne _ _ hne] at hblock
          refine hother b block hblock ?_
          rw [List.mem_cons, not_or]
          exact ⟨hne.symm, hb⟩

/-- What moving the leading allocas of a block to the entry does to both. -/
theorem hoistAllocas_eq {source entry : Block} (hsource : f.block? b = some source)
    (hentry : f.block? f.entry = some entry) (hne : b ≠ f.entry) :
    f.hoistAllocas b = .ok { f with
      blocks := (f.blocks.modify b (·.mapInstructions
          (·.drop (source.instructions.takeWhile (·.op.isAlloca)).length))).modify f.entry
        (·.mapInstructions fun instructions =>
          instructions.take entry.preambleSize ++
            source.instructions.takeWhile (·.op.isAlloca) ++
            instructions.drop entry.preambleSize) } := by
  unfold hoistAllocas
  rw [block_eq_ok hsource]
  simp only [bind, Except.bind]
  have hok : ∀ g, (f.mapBlock b g).block (f.mapBlock b g).entry = .ok entry := by
    intro g
    apply block_eq_ok
    change (f.blocks.modify b g)[f.entry]? = some entry
    rw [List.getElem?_modify_ne _ _ hne]
    exact hentry
  rw [hok]
  rfl

/-- What is left of the form of a body when its variables do not count, and phis need not
list all predecessors. -/
structure WellShaped (f : Function) : Prop where
  entry_lt : f.entry < f.blocks.length
  targets_lt : ∀ a b, b ∈ f.successors a → b < f.blocks.length
  entry_not_successor : ∀ a, f.entry ∉ f.successors a
  phis_first : ∀ b before i after, f.body b = before ++ i :: after → i.op.isPhi = true →
    ∀ j ∈ before, j.op.isPhi = true
  sources_precede : ∀ b, ∀ i ∈ f.body b, ∀ a ∈ i.op.sources, b ∈ f.successors a

/-- A block that a phi lists exists. -/
theorem WellShaped.lt_of_listed (h : f.WellShaped) {source : BlockId} (hi : i ∈ f.body b)
    (hsource : source ∈ i.op.sources) : source < f.blocks.length := by
  obtain ⟨block, hblock, _⟩ := mem_successors.mp (h.sources_precede b i hi source hsource)
  exact (List.getElem?_eq_some_iff.mp hblock).1

theorem WellFormed.wellShaped (h : f.WellFormed) : f.WellShaped where
  entry_lt := h.entry_lt
  targets_lt := h.targets_lt
  entry_not_successor := h.entry_not_successor
  phis_first := h.phis_first
  sources_precede b i hi a ha := by
    cases hop : i.op with
    | phi dest ty incoming =>
        rw [hop] at ha
        exact (h.phi_sources b i hi dest ty incoming hop a).mp ha
    | _ => simp [hop, Operation.sources] at ha

def ReturnsAgree (f : Function) : Prop :=
  (∀ block ∈ f.blocks, block.terminator ≠ .ret none) ∨
    ∀ block ∈ f.blocks, ∀ value, block.terminator ≠ .ret (some value)

end Function

/-- A call of a function with a body, in a body. -/
structure Inlining where
  caller : Function
  site : CallSite
  block : BlockId
  head : Block
  before : List Instruction
  call : Instruction
  after : List Instruction
  target : Operand
  block_eq : caller.block? block = some head
  split : head.instructions = before ++ call :: after
  call_eq : call.op = .call site.dest site.returnType target site.args
  shaped : caller.WellShaped
  callee_shaped : site.callee.WellShaped

namespace Inlining

variable (inl : Inlining)

abbrev callee : Function := inl.site.callee

/-- The block where control goes on after the call. -/
def cont : BlockId := inl.caller.blocks.length

def clone (c : BlockId) : BlockId := inl.cont + 1 + c

/-- The call now ends in another block, which the phis of its successors list. -/
def moved (b : BlockId) : BlockId := if b = inl.block then inl.cont else b

def names : Renaming := inl.site.renaming inl.caller

def entryCopy : List Instruction := (inl.callee.body inl.callee.entry).map inl.names.instruction

/-- The leading allocas of the callee, which move to the entry of the caller. -/
def allocas : List Instruction := inl.entryCopy.takeWhile (·.op.isAlloca)

def returned : List (Operand × BlockId) := inl.callee.returns inl.names

def merge : List Instruction :=
  match inl.site.dest, inl.returned with
  | some dest, first :: second :: rest =>
      [{ op := .phi dest inl.site.returnType (first :: second :: rest) }]
  | _, _ => []

def subst : Operand → Operand :=
  match inl.site.dest, inl.returned with
  | some dest, [] => Operand.replaceVar dest (.poison inl.site.returnType)
  | some dest, [(value, _)] => Operand.replaceVar dest value
  | _, _ => id

def hoist (b : BlockId) (instructions : List Instruction) : List Instruction :=
  if b = inl.caller.entry then
    let place := instructions.findIdx fun i => !i.op.isPhi && !i.op.isAlloca
    instructions.take place ++ inl.allocas ++ instructions.drop place
  else instructions

def kept (b : BlockId) (block : Block) : List Instruction :=
  if b = inl.block then inl.before else block.instructions

def exit (b : BlockId) (block : Block) : Terminator :=
  if b = inl.block then .jump (inl.clone inl.callee.entry) else block.terminator

def copied (c : BlockId) (block : Block) : List Instruction :=
  (block.instructions.map inl.names.instruction).drop
    (if c = inl.callee.entry then inl.allocas.length else 0)

def tail : Block where
  name := some (inl.callee.name ++ ".exit")
  instructions := inl.after
  terminator := inl.head.terminator

def splitBlocks : List Block :=
  (inl.caller.blocks.modify inl.block (fun head =>
      { head with instructions := inl.before, terminator := .unreachable }) ++ [inl.tail]).map
    fun block => block.mapInstructions (·.map (·.mapIncoming inl.moved))

def spread : Function :=
  { inl.caller with
    values := inl.caller.values ++ inl.callee.innerValues.map Prod.fst
    blocks := inl.splitBlocks ++ inl.callee.copyBlocks inl.names inl.cont }

def hoistedBlocks : List Block :=
  (inl.spread.blocks.modify (inl.clone inl.callee.entry)
      (·.mapInstructions (·.drop inl.allocas.length))).modify
    inl.caller.entry (·.mapInstructions (inl.hoist inl.caller.entry))

def joinedBlocks : List Block :=
  inl.hoistedBlocks.modify inl.block fun block =>
    { block with terminator := .jump (inl.clone inl.callee.entry) }

def result : Function :=
  { inl.spread with
    blocks := (inl.joinedBlocks.modify inl.cont (·.mapInstructions (inl.merge ++ ·))).map
      (·.mapOperands inl.subst) }

/-! ## The steps of inlining -/

theorem block_lt : inl.block < inl.cont := (List.getElem?_eq_some_iff.mp inl.block_eq).1

theorem entry_lt : inl.caller.entry < inl.cont := inl.shaped.entry_lt

theorem body_block : inl.caller.body inl.block = inl.before ++ inl.call :: inl.after := by
  rw [Function.body_eq inl.block_eq, inl.split]

theorem call_not_phi : inl.call.op.isPhi = false := by
  rw [inl.call_eq]
  rfl

/-- Phis stand at the head of a block, so there are none behind the call. -/
theorem after_not_phi : ∀ i ∈ inl.after, i.op.isPhi = false := by
  intro i hi
  obtain ⟨front, back, hafter⟩ := List.append_of_mem hi
  by_contra hphi
  have hsplit : inl.caller.body inl.block = (inl.before ++ inl.call :: front) ++ i :: back := by
    rw [inl.body_block, hafter]
    simp
  have := inl.shaped.phis_first _ _ _ _ hsplit (by simpa using hphi) inl.call (by simp)
  rw [inl.call_not_phi] at this
  cases this

theorem moved_moved (b : BlockId) : inl.moved (inl.moved b) = inl.moved b := by
  unfold moved
  split
  next => exact if_neg (Nat.ne_of_gt inl.block_lt)
  next h => rfl

theorem mem_successors_block :
    b ∈ inl.caller.successors inl.block ↔ b ∈ inl.head.terminator.targets := by
  rw [Function.mem_successors]
  constructor
  · rintro ⟨head, hhead, hb⟩
    rwa [Option.some.inj (inl.block_eq.symm.trans hhead)]
  · exact fun hb => ⟨inl.head, inl.block_eq, hb⟩

/-- Only the phis of the successors list the block of the call. -/
theorem mapIncoming_moved (hb : b ∉ inl.head.terminator.targets) (hi : i ∈ inl.caller.body b) :
    i.mapIncoming inl.moved = i := by
  have hsame : i.mapIncoming inl.moved = i.mapIncoming id := by
    apply Instruction.mapIncoming_congr
    intro dest ty incoming hop a ha
    have hedge := inl.shaped.sources_precede b i hi a (by rw [hop]; exact ha)
    refine if_neg ?_
    rintro rfl
    exact hb (inl.mem_successors_block.mp hedge)
  rw [hsame, Instruction.mapIncoming_id]

theorem entryCopy_eq :
    inl.entryCopy = inl.allocas ++ inl.entryCopy.drop inl.allocas.length :=
  List.prefix_append_drop (List.takeWhile_prefix _)

/-- What splitting the block of the call gives. -/
theorem splitAt_eq :
    inl.caller.splitAt inl.block inl.before.length (inl.callee.name ++ ".exit") =
      .ok { inl.caller with blocks := inl.splitBlocks } := by
  have hmodify : inl.caller.blocks.modify inl.block (fun head =>
      { head with instructions := head.instructions.take inl.before.length,
                  terminator := .unreachable }) =
      inl.caller.blocks.modify inl.block fun head =>
        { head with instructions := inl.before, terminator := .unreachable } := by
    refine Function.modify_congr inl.block_eq ?_
    simp [inl.split]
  have hdrop : inl.head.instructions.drop (inl.before.length + 1) = inl.after := by
    simp [inl.split]
  have hidem : ∀ block : Block,
      (block.mapInstructions (·.map (·.mapIncoming inl.moved))).mapInstructions
        (·.map (·.mapIncoming inl.moved)) =
      block.mapInstructions (·.map (·.mapIncoming inl.moved)) := by
    intro block
    have hmoved : inl.moved ∘ inl.moved = inl.moved := funext inl.moved_moved
    simp [Block.mapInstructions, Instruction.mapIncoming_mapIncoming, hmoved]
  unfold Function.splitAt
  rw [Function.block_eq_ok inl.block_eq]
  simp only [bind, Except.bind, pure, Except.pure, hmodify, hdrop]
  refine congrArg Except.ok (Function.foldl_mapBlock hidem _ _ ?_)
  have hself : ∀ block : Block, (∀ i ∈ block.instructions, i.mapIncoming inl.moved = i) →
      block.mapInstructions (·.map (·.mapIncoming inl.moved)) = block := by
    intro block h
    rw [Block.mapInstructions, List.map_congr_left h, List.map_id']
  intro b block hblock hb
  apply hself
  intro i hi
  simp only [Function.block?, List.getElem?_append, List.length_modify] at hblock
  split at hblock
  next =>
    apply inl.mapIncoming_moved hb
    rcases eq_or_ne inl.block b with rfl | hne
    · have hget : inl.caller.blocks[inl.block]? = some inl.head := inl.block_eq
      simp only [List.getElem?_modify_eq, hget, Option.map_eq_map, Option.map_some,
        Option.some.injEq] at hblock
      subst hblock
      rw [inl.body_block]
      exact List.mem_append_left _ hi
    · rw [List.getElem?_modify_ne _ _ hne] at hblock
      rwa [Function.body_eq hblock]
  next =>
    obtain ⟨_, rfl⟩ := List.getElem?_eq_some_iff.mp hblock
    rw [List.getElem_singleton] at hi
    exact Instruction.mapIncoming_of_not_phi (inl.after_not_phi i hi) _

theorem length_splitBlocks : inl.splitBlocks.length = inl.cont + 1 := by
  simp [splitBlocks, cont]

theorem names_block (hc : c < inl.callee.blocks.length) : inl.names.block c = inl.clone c :=
  if_pos hc

/-- The blocks of the caller before the callee is put in. -/
theorem splitBlocks_of_block? (hb : inl.caller.block? b = some block) :
    inl.splitBlocks[b]? = some
      { block with
        instructions := (inl.kept b block).map (·.mapIncoming inl.moved)
        terminator := if b = inl.block then .unreachable else block.terminator } := by
  have hget : inl.caller.blocks[b]? = some block := hb
  have hlt := (List.getElem?_eq_some_iff.mp hget).1
  rw [splitBlocks, List.getElem?_map, List.getElem?_append_left (by simpa using hlt)]
  rcases eq_or_ne inl.block b with rfl | hne
  · simp [hget, kept, Block.mapInstructions]
  · simp [hget, hne, hne.symm, kept, Block.mapInstructions]

theorem splitBlocks_cont : inl.splitBlocks[inl.cont]? = some inl.tail := by
  have hsame : inl.after.map (·.mapIncoming inl.moved) = inl.after := by
    rw [List.map_congr_left fun i hi =>
      Instruction.mapIncoming_of_not_phi (inl.after_not_phi i hi) _, List.map_id']
  simp [splitBlocks, cont, Block.mapInstructions, tail, hsame]

def copy (c : BlockId) (block : Block) : Block where
  name := some (inl.callee.copyName block c)
  instructions := block.instructions.map inl.names.instruction
  terminator := inl.names.terminator inl.cont block.terminator

theorem spread_of_block? (hb : inl.caller.block? b = some block) :
    inl.spread.block? b = some
      { block with
        instructions := (inl.kept b block).map (·.mapIncoming inl.moved)
        terminator := if b = inl.block then .unreachable else block.terminator } := by
  have hlt : b < inl.splitBlocks.length := by
    rw [length_splitBlocks]
    exact Nat.lt_succ_of_lt (List.getElem?_eq_some_iff.mp hb).1
  rw [← inl.splitBlocks_of_block? hb]
  exact List.getElem?_append_left hlt

theorem spread_cont : inl.spread.block? inl.cont = some inl.tail := by
  rw [← inl.splitBlocks_cont]
  exact List.getElem?_append_left (by simp [length_splitBlocks])

theorem spread_clone (hc : inl.callee.block? c = some block) :
    inl.spread.block? (inl.clone c) = some (inl.copy c block) := by
  have hget : inl.callee.blocks[c]? = some block := hc
  have hle : inl.splitBlocks.length ≤ inl.clone c := by
    rw [length_splitBlocks]
    exact Nat.le_add_right _ _
  rw [Function.block?, spread, List.getElem?_append_right hle, length_splitBlocks, clone,
    Nat.add_sub_cancel_left]
  simp [Function.copyBlocks, hget, copy]

theorem exists_entry : ∃ block, inl.callee.block? inl.callee.entry = some block ∧
    inl.callee.body inl.callee.entry = block.instructions := by
  have hlt := inl.callee_shaped.entry_lt
  exact ⟨_, List.getElem?_eq_getElem hlt, Function.body_eq (List.getElem?_eq_getElem hlt)⟩

theorem exists_caller_entry : ∃ block, inl.caller.block? inl.caller.entry = some block :=
  ⟨_, List.getElem?_eq_getElem inl.shaped.entry_lt⟩

theorem clone_ne (hb : b ≤ inl.cont) : inl.clone c ≠ b := by
  unfold clone
  exact Nat.ne_of_gt (Nat.lt_of_le_of_lt hb (by omega))

/-- What moving the allocas of the copied entry gives. -/
theorem spread_hoistAllocas :
    inl.spread.hoistAllocas (inl.clone inl.callee.entry) =
      .ok { inl.spread with blocks := inl.hoistedBlocks } := by
  obtain ⟨source, hsource, hbody⟩ := inl.exists_entry
  obtain ⟨entry, hentry⟩ := inl.exists_caller_entry
  have hplaced := inl.spread_of_block? hentry
  have hne : inl.clone inl.callee.entry ≠ inl.caller.entry :=
    inl.clone_ne (Nat.le_of_lt inl.entry_lt)
  have hallocas : (inl.copy inl.callee.entry source).instructions.takeWhile (·.op.isAlloca) =
      inl.allocas := by
    rw [allocas, entryCopy, hbody]
    rfl
  rw [Function.hoistAllocas_eq (inl.spread_clone hsource) hplaced hne, hallocas, hoistedBlocks]
  refine congrArg (fun blocks => Except.ok { inl.spread with blocks }) ?_
  apply Function.modify_congr
  · exact (List.getElem?_modify_ne _ _ hne).trans hplaced
  · simp only [Block.mapInstructions, hoist, if_true]
    rfl

theorem hoistedBlocks_block : ∃ head, inl.hoistedBlocks[inl.block]? = some head := by
  have hsome := inl.spread_of_block? inl.block_eq
  have hlt := (List.getElem?_eq_some_iff.mp hsome).1
  exact ⟨_, List.getElem?_eq_getElem (by simpa [hoistedBlocks] using hlt)⟩

/-- How the result of the call is bound: not at all, to poison, to the one value that is
returned, or by a phi of all values that are returned. -/
theorem binding_cases :
    (inl.site.dest = none ∧ inl.subst = id ∧ inl.merge = []) ∨
    (∃ dest, inl.site.dest = some dest ∧ inl.returned = [] ∧
      inl.subst = Operand.replaceVar dest (.poison inl.site.returnType) ∧ inl.merge = []) ∨
    (∃ dest value source, inl.site.dest = some dest ∧ inl.returned = [(value, source)] ∧
      inl.subst = Operand.replaceVar dest value ∧ inl.merge = []) ∨
    ∃ dest first second rest, inl.site.dest = some dest ∧
      inl.returned = first :: second :: rest ∧ inl.subst = id ∧
      inl.merge = [{ op := .phi dest inl.site.returnType inl.returned }] := by
  unfold subst merge
  cases hdest : inl.site.dest with
  | none => exact .inl ⟨rfl, rfl, rfl⟩
  | some dest =>
      cases hreturned : inl.returned with
      | nil => exact .inr (.inl ⟨dest, rfl, rfl, rfl, rfl⟩)
      | cons first rest =>
          cases rest with
          | nil => exact .inr (.inr (.inl ⟨dest, first.1, first.2, rfl, rfl, rfl, rfl⟩))
          | cons second rest =>
              exact .inr (.inr (.inr ⟨dest, first, second, rest, rfl, rfl, rfl, rfl⟩))

/-- What binding the result of the call gives. -/
theorem bindResult_eq :
    Function.bindResult { inl.spread with blocks := inl.joinedBlocks } inl.site inl.cont
      inl.returned = inl.result := by
  have hid : ∀ blocks : List Block, blocks.map (·.mapOperands id) = blocks := by
    intro blocks
    rw [List.map_congr_left fun block _ => Block.mapOperands_id block, List.map_id']
  have hnone : ∀ blocks : List Block,
      blocks.modify inl.cont (·.mapInstructions ([] ++ ·)) = blocks := fun blocks =>
    List.modify_id inl.cont blocks
  unfold Function.bindResult result
  rcases inl.binding_cases with ⟨hdest, hsubst, hmerge⟩ | ⟨dest, hdest, hreturned, hsubst, hmerge⟩ |
    ⟨dest, value, source, hdest, hreturned, hsubst, hmerge⟩ |
    ⟨dest, first, second, rest, hdest, hreturned, hsubst, hmerge⟩
  · simp only [hdest, hsubst, hmerge, hid, hnone]
  · simp only [hdest, hreturned, hsubst, hmerge, hnone]
    rfl
  · simp only [hdest, hreturned, hsubst, hmerge, hnone]
    rfl
  · simp only [hdest, hreturned, hsubst, hmerge, hid]
    rfl

/-- Inlining the body gives the result that is described here. -/
theorem inlineBody_eq :
    inl.caller.inlineBody inl.site inl.block inl.before.length = .ok inl.result := by
  obtain ⟨head, hhead⟩ := inl.hoistedBlocks_block
  have hjoin : Function.setTerminator { inl.spread with blocks := inl.hoistedBlocks } inl.block
      (.jump (inl.clone inl.callee.entry)) =
        .ok { inl.spread with blocks := inl.joinedBlocks } := by
    have hok : Function.block { inl.spread with blocks := inl.hoistedBlocks } inl.block =
        .ok head := Function.block_eq_ok hhead
    unfold Function.setTerminator Function.updateBlock
    rw [hok]
    rfl
  unfold Function.inlineBody
  simp only [bind, Except.bind, inl.splitAt_eq]
  change Except.bind (inl.spread.hoistAllocas (inl.names.block inl.callee.entry)) (fun hoisted =>
    Except.bind (hoisted.setTerminator inl.block (.jump (inl.names.block inl.callee.entry)))
      fun joined => .ok (joined.bindResult inl.site inl.cont inl.returned)) = _
  rw [inl.names_block inl.callee_shaped.entry_lt, inl.spread_hoistAllocas]
  change Except.bind (Function.setTerminator { inl.spread with blocks := inl.hoistedBlocks }
    inl.block (.jump (inl.clone inl.callee.entry))) _ = _
  rw [hjoin]
  exact congrArg Except.ok inl.bindResult_eq

/-- Every call between bodies of this shape can be inlined. -/
theorem exists_of_call {site : CallSite} {index : Nat} {target : Operand}
    (hblock : f.block? b = some block) (hi : block.instructions[index]? = some i)
    (hop : i.op = .call site.dest site.returnType target site.args) (hcaller : f.WellShaped)
    (hcallee : site.callee.WellShaped) :
    ∃ inl : Inlining, inl.caller = f ∧ inl.site = site ∧ inl.target = target ∧
      f.inlineBody site b index = .ok inl.result := by
  obtain ⟨hlt, rfl⟩ := List.getElem?_eq_some_iff.mp hi
  let inl : Inlining := {
    caller := f
    site
    block := b
    head := block
    before := block.instructions.take index
    call := block.instructions[index]
    after := block.instructions.drop (index + 1)
    target
    block_eq := hblock
    split := by rw [← List.drop_eq_getElem_cons hlt, List.take_append_drop]
    call_eq := hop
    shaped := hcaller
    callee_shaped := hcallee }
  have hindex : inl.before.length = index := by simpa [inl] using Nat.le_of_lt hlt
  exact ⟨inl, rfl, rfl, rfl, hindex ▸ inl.inlineBody_eq⟩

/-! ## The blocks of the result -/

def callerBlock (b : BlockId) (block : Block) : Block :=
  Block.mapOperands inl.subst
    { block with
      instructions := inl.hoist b ((inl.kept b block).map (·.mapIncoming inl.moved))
      terminator := inl.exit b block }

def contBlock : Block :=
  Block.mapOperands inl.subst { inl.tail with instructions := inl.merge ++ inl.after }

def calleeBlock (c : BlockId) (block : Block) : Block :=
  Block.mapOperands inl.subst { inl.copy c block with instructions := inl.copied c block }

theorem joinedBlocks_of_block? (hb : inl.caller.block? b = some block) :
    inl.joinedBlocks[b]? = some
      { block with
        instructions := inl.hoist b ((inl.kept b block).map (·.mapIncoming inl.moved))
        terminator := inl.exit b block } := by
  have hlt : b < inl.cont := (List.getElem?_eq_some_iff.mp hb).1
  have hspread : inl.spread.blocks[b]? = _ := inl.spread_of_block? hb
  have hclone : (inl.spread.blocks.modify (inl.clone inl.callee.entry)
      (·.mapInstructions (·.drop inl.allocas.length)))[b]? = _ :=
    (List.getElem?_modify_ne _ _ (inl.clone_ne (Nat.le_of_lt hlt))).trans hspread
  have hhoisted : inl.hoistedBlocks[b]? = some
      { block with
        instructions := inl.hoist b ((inl.kept b block).map (·.mapIncoming inl.moved))
        terminator := if b = inl.block then .unreachable else block.terminator } := by
    unfold hoistedBlocks
    rcases eq_or_ne inl.caller.entry b with rfl | hne
    · rw [List.getElem?_modify_eq, hclone]
      rfl
    · rw [List.getElem?_modify_ne _ _ hne, hclone, hoist, if_neg hne.symm]
  unfold joinedBlocks
  rcases eq_or_ne inl.block b with rfl | hne
  · have hexit : inl.exit inl.block block = .jump (inl.clone inl.callee.entry) := if_pos rfl
    rw [List.getElem?_modify_eq, hhoisted, hexit]
    rfl
  · rw [List.getElem?_modify_ne _ _ hne, hhoisted, exit, if_neg hne.symm, if_neg hne.symm]

theorem joinedBlocks_clone (hc : inl.callee.block? c = some block) :
    inl.joinedBlocks[inl.clone c]? =
      some { inl.copy c block with instructions := inl.copied c block } := by
  have hentry : inl.caller.entry ≠ inl.clone c := (inl.clone_ne (Nat.le_of_lt inl.entry_lt)).symm
  have hblock : inl.block ≠ inl.clone c := (inl.clone_ne (Nat.le_of_lt inl.block_lt)).symm
  have hspread : inl.spread.blocks[inl.clone c]? = _ := inl.spread_clone hc
  unfold joinedBlocks hoistedBlocks
  rw [List.getElem?_modify_ne _ _ hblock, List.getElem?_modify_ne _ _ hentry]
  rcases eq_or_ne inl.callee.entry c with rfl | hne
  · rw [List.getElem?_modify_eq, hspread, copied, if_pos rfl]
    rfl
  · have hclone : inl.clone inl.callee.entry ≠ inl.clone c :=
      fun heq => hne (Nat.add_left_cancel heq)
    rw [List.getElem?_modify_ne _ _ hclone, hspread, copied, if_neg hne.symm]
    rfl

theorem joinedBlocks_cont : inl.joinedBlocks[inl.cont]? = some inl.tail := by
  unfold joinedBlocks hoistedBlocks
  rw [List.getElem?_modify_ne _ _ (Nat.ne_of_lt inl.block_lt),
    List.getElem?_modify_ne _ _ (Nat.ne_of_lt inl.entry_lt),
    List.getElem?_modify_ne _ _ (inl.clone_ne (Nat.le_refl _))]
  exact inl.spread_cont

/-- A block of the caller keeps its place. -/
theorem result_of_block? (hb : inl.caller.block? b = some block) :
    inl.result.block? b = some (inl.callerBlock b block) := by
  have hne : inl.cont ≠ b := Nat.ne_of_gt (List.getElem?_eq_some_iff.mp hb).1
  rw [Function.block?, result, List.getElem?_map, List.getElem?_modify_ne _ _ hne,
    inl.joinedBlocks_of_block? hb]
  rfl

theorem result_cont : inl.result.block? inl.cont = some inl.contBlock := by
  rw [Function.block?, result, List.getElem?_map, List.getElem?_modify_eq, inl.joinedBlocks_cont]
  rfl

theorem result_clone (hc : inl.callee.block? c = some block) :
    inl.result.block? (inl.clone c) = some (inl.calleeBlock c block) := by
  have hne : inl.cont ≠ inl.clone c := (inl.clone_ne (Nat.le_refl _)).symm
  rw [Function.block?, result, List.getElem?_map, List.getElem?_modify_ne _ _ hne,
    inl.joinedBlocks_clone hc]
  rfl

theorem length_result : inl.result.blocks.length = inl.clone inl.callee.blocks.length := by
  simp [result, joinedBlocks, hoistedBlocks, spread, length_splitBlocks, Function.copyBlocks, clone]

/-- Each block is one of the caller, the one behind the call, or a copy. -/
theorem result_cases (h : inl.result.block? b = some block) :
    (∃ old, inl.caller.block? b = some old ∧ block = inl.callerBlock b old) ∨
    (b = inl.cont ∧ block = inl.contBlock) ∨
    ∃ c old, b = inl.clone c ∧ inl.callee.block? c = some old ∧ block = inl.calleeBlock c old := by
  have hlt : b < inl.clone inl.callee.blocks.length := by
    rw [← length_result]
    exact (List.getElem?_eq_some_iff.mp h).1
  rcases Nat.lt_trichotomy b inl.cont with hold | rfl | hclone
  · have hb := List.getElem?_eq_getElem hold
    exact .inl ⟨_, hb, Option.some.inj (h.symm.trans (inl.result_of_block? hb))⟩
  · exact .inr (.inl ⟨rfl, Option.some.inj (h.symm.trans inl.result_cont)⟩)
  · obtain ⟨c, rfl⟩ := Nat.exists_eq_add_of_lt hclone
    have hshift : inl.cont + c + 1 = inl.clone c := Nat.add_right_comm _ _ _
    rw [hshift] at h hlt
    have hc := List.getElem?_eq_getElem (Nat.lt_of_add_lt_add_left hlt)
    exact .inr (.inr ⟨c, _, hshift, hc, Option.some.inj (h.symm.trans (inl.result_clone hc))⟩)

end Inlining

end Monolith

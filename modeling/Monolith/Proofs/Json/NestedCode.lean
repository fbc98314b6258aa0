import Monolith.Proofs.Flattening.ExtendedFunctions
import Monolith.Proofs.Flattening.FlatteningSteps
import Monolith.Proofs.Inlining.CopiedNames
import Monolith.Proofs.Json.ReadModules

/-! # How deep code is nested

Flattening moves constants to other places: arguments and returned values go where a body reads
them, and initializers go from globals into stores. An initializer stands three levels deep in a
module and the value of a store ten levels deep, so the nesting of a module grows by up to seven
levels. All other operands have room for that.
-/

namespace Monolith

open Json

variable {change : Operand → Operand} {block : Block}

/-! ## Operands and operations -/

namespace Operand

theorem nesting_const (c : Constant) : (const c).toJson.nesting = c.toJson.nesting + 1 := by
  simp [toJson, tagged, object, nesting, memberNesting]

theorem nesting_poison (ty : Ty) : (poison ty).toJson.nesting = ty.toJson.nesting + 2 := by
  simp [poison, toJson, Constant.toJson, tagged, object, nesting, memberNesting]

theorem nesting_i32_le (levels : Nat) (value : Int64) :
    (i32 value).toJson.nesting ≤ levels + 5 := by
  have hfour : (i32 value).toJson.nesting = 4 := by
    simp [i32, Constant.i32, toJson, Constant.toJson, Ty.toJson, tagged, object, nesting,
      memberNesting]
  omega

/-- What the change gives fits where the old operand stood, or wherever any operand may stand. -/
def Fitting (levels : Nat) (change : Operand → Operand) : Prop :=
  ∀ o, (change o).toJson.nesting ≤ max o.toJson.nesting (levels + 5)

/-- A replacement that fits everywhere may be put in place of a variable. -/
theorem fitting_replaceVar {levels : Nat} {replacement : Operand}
    (h : replacement.toJson.nesting ≤ levels + 5) (x : ValueId) :
    Fitting levels (replaceVar x replacement) := by
  intro o
  unfold replaceVar
  split
  next => exact le_max_of_le_right h
  next => exact le_max_left _ _

end Operand

namespace Operation

def types : Operation → List Ty
  | .alloca _ ty _ _ => [ty]
  | .load _ ty _ _ => [ty]
  | .store .. => []
  | .elementPtr _ source _ _ _ => [source]
  | .binary _ _ ty _ _ => [ty]
  | .compare .. => []
  | .cast _ _ _ ty => [ty]
  | .call _ returnType _ _ => [returnType]
  | .phi _ ty _ => [ty]

/-- The result of a call may become poison of its type, and so an operand. -/
def typeRoom : Operation → Nat
  | .call .. => 3
  | _ => 7

/-- What is stored stays where it is, but any other operand may come to stand in a phi. -/
def operandRoom : Operation → Nat
  | .store .. => 7
  | _ => 5

/-- Types and operands are no deeper than there is room for wherever they may come to stand. -/
structure Within (levels : Nat) (op : Operation) : Prop where
  types : ∀ ty ∈ op.types, ty.toJson.nesting ≤ levels + op.typeRoom
  operands : ∀ o ∈ op.operands, o.toJson.nesting ≤ levels + op.operandRoom

/-- What `Within` says of an operation beside its operands. -/
def frame (op : Operation) : List Ty × Nat × Nat := (op.types, op.typeRoom, op.operandRoom)

section

variable {levels : Nat} {op op' : Operation}

theorem five_le_operandRoom (op : Operation) : 5 ≤ op.operandRoom := by
  cases op <;> exact Nat.le_add_left 5 _

theorem operandRoom_le (op : Operation) : op.operandRoom ≤ 7 := by
  cases op <;> exact Nat.le_add_left _ _

@[simp] theorem frame_mapOperands (change : Operand → Operand) (op : Operation) :
    (op.mapOperands change).frame = op.frame := by
  cases op <;> rfl

@[simp] theorem frame_mapDest (rename : ValueId → ValueId) (op : Operation) :
    (op.mapDest rename).frame = op.frame := by
  cases op <;> rfl

@[simp] theorem frame_mapIncoming (rename : BlockId → BlockId) (op : Operation) :
    (op.mapIncoming rename).frame = op.frame := by
  cases op <;> rfl

@[simp] theorem frame_withOperands (op : Operation) (os : List Operand) :
    (op.withOperands os).frame = op.frame := by
  unfold withOperands
  split <;> rfl

namespace Within

/-- Of an operation with other operands, only these have to be looked at. -/
theorem of_frame (h : op.Within levels) (hframe : op'.frame = op.frame)
    (hoperands : ∀ o ∈ op'.operands, o.toJson.nesting ≤ levels + op.operandRoom) :
    op'.Within levels := by
  obtain ⟨htypes, hrooms⟩ := Prod.mk.inj hframe
  obtain ⟨htypeRoom, hoperandRoom⟩ := Prod.mk.inj hrooms
  constructor
  · rw [htypes, htypeRoom]
    exact h.types
  · rw [hoperandRoom]
    exact hoperands

/-- A change that fits keeps an operation within the bounds. -/
theorem mapOperands (h : op.Within levels) (hchange : Operand.Fitting levels change) :
    (op.mapOperands change).Within levels := by
  apply h.of_frame (op.frame_mapOperands change)
  rw [operands_mapOperands, List.forall_mem_map]
  intro o ho
  have hroom := Nat.add_le_add_left op.five_le_operandRoom levels
  exact (hchange o).trans (max_le (h.operands o ho) hroom)

theorem mapDest (h : op.Within levels) (rename : ValueId → ValueId) :
    (op.mapDest rename).Within levels := by
  apply h.of_frame (op.frame_mapDest rename)
  rw [operands_mapDest]
  exact h.operands

theorem mapIncoming (h : op.Within levels) (rename : BlockId → BlockId) :
    (op.mapIncoming rename).Within levels := by
  apply h.of_frame (op.frame_mapIncoming rename)
  rw [operands_mapIncoming]
  exact h.operands

end Within

theorem nesting_incoming_le {incoming : List (Operand × BlockId)} :
    (arr (incoming.map incomingToJson)).nesting ≤ levels + 2 ↔
      ∀ o ∈ incoming.map Prod.fst, o.toJson.nesting ≤ levels := by
  rw [nesting_arr_le_succ, List.forall_mem_map, List.forall_mem_map]
  apply forall₂_congr
  intro entry _
  rw [incomingToJson, nesting_arr_le_succ]
  simp

/-- An operation within the bounds is written in nine levels more. -/
theorem Within.nesting (h : op.Within levels) : op.toJson.nesting ≤ levels + 9 := by
  obtain ⟨htypes, hoperands⟩ := h
  cases op with
  | phi dest ty incoming =>
      -- two arrays around each operand: nothing else puts an operand as deep
      rw [toJson, nesting_tagged_le_succ, nesting_object_le_succ]
      simp only [List.forall_mem_cons]
      have hincoming := nesting_incoming_le.mpr hoperands
      exact ⟨Nat.zero_le _, htypes ty List.mem_cons_self, hincoming, List.forall_mem_nil _⟩
  | _ =>
      simp only [Operation.types, Operation.operands, typeRoom, operandRoom,
        List.forall_mem_cons] at htypes hoperands
      simp only [toJson, BinaryOp.toJson, Predicate.toJson, CastOp.toJson, nesting_tagged_le_succ,
        nesting_object_le_succ, nesting_arr_le_succ, nesting_optional_nat, nesting_nat,
        nesting_string, nesting_bool, List.forall_mem_cons, List.forall_mem_map]
      grind

/-- An operation that is written in two levels more is within the bounds. -/
theorem within_of_nesting (h : op.toJson.nesting ≤ levels + 2) : op.Within levels := by
  cases op with
  | phi dest ty incoming =>
      rw [toJson, nesting_tagged_le_succ, nesting_object_le_succ] at h
      simp only [List.forall_mem_cons] at h
      obtain ⟨_, hty, hincoming, _⟩ := h
      have hoperands := nesting_incoming_le.mp (Nat.le_add_right_of_le (k := 2) hincoming)
      constructor
      · exact List.forall_mem_singleton.mpr (Nat.le_add_right_of_le hty)
      · exact fun o ho => Nat.le_add_right_of_le (hoperands o ho)
  | _ =>
      simp only [toJson, nesting_tagged_le_succ, nesting_object_le_succ, nesting_arr_le,
        List.forall_mem_cons, List.forall_mem_map] at h
      constructor <;>
        simp only [Operation.types, Operation.operands, typeRoom, operandRoom,
          List.forall_mem_cons] <;>
        grind

end

end Operation

/-! ## Blocks and functions -/

structure Block.Within (levels : Nat) (block : Block) : Prop where
  instructions : ∀ i ∈ block.instructions, i.op.Within levels
  terminator : ∀ o ∈ block.terminator.operands, o.toJson.nesting ≤ levels + 5

structure Function.Within (levels : Nat) (f : Function) : Prop where
  blocks : ∀ block ∈ f.blocks, block.Within levels
  values : ∀ info ∈ f.values, info.ty.toJson.nesting ≤ levels + 7
  returnType : f.returnType.toJson.nesting ≤ levels + 7

variable {levels : Nat}

theorem Operand.Fitting.le (h : Fitting levels change) {o : Operand}
    (ho : o.toJson.nesting ≤ levels + 5) : (change o).toJson.nesting ≤ levels + 5 :=
  (h o).trans (max_le ho le_rfl)

theorem Block.Within.mapOperands (h : block.Within levels)
    (hchange : Operand.Fitting levels change) :
    (block.mapOperands change).Within levels where
  instructions := List.forall_mem_map.mpr fun i hi => (h.instructions i hi).mapOperands hchange
  terminator := by
    rw [terminator_mapOperands, Terminator.operands_mapOperands, List.forall_mem_map]
    exact fun o ho => hchange.le (h.terminator o ho)

/-- The code of a block may be changed as long as it is within the bound. -/
theorem Block.Within.mapInstructions {change : List Instruction → List Instruction}
    (h : block.Within levels) (hchange : ∀ i ∈ change block.instructions, i.op.Within levels) :
    (block.mapInstructions change).Within levels :=
  ⟨hchange, h.terminator⟩

namespace Function

variable {f g : Function} {b : BlockId}

namespace Within

/-- A change that fits keeps a body within the bounds. -/
theorem mapOperands (h : f.Within levels) (hchange : Operand.Fitting levels change) :
    (f.mapOperands change).Within levels where
  blocks := List.forall_mem_map.mpr fun block hblock => (h.blocks block hblock).mapOperands hchange
  values := h.values
  returnType := h.returnType

theorem mapBlock {change : Block → Block} (h : f.Within levels)
    (hchange : ∀ block, block.Within levels → (change block).Within levels) :
    (f.mapBlock b change).Within levels where
  blocks := by
    intro block hblock
    obtain ⟨old, hold, hblock⟩ := mem_blocks_mapBlock hblock
    have hwithin := h.blocks old hold
    rcases hblock with rfl | rfl
    · exact hwithin
    · exact hchange old hwithin
  values := h.values
  returnType := h.returnType

theorem updateBlock {change : Block → Block} (hf : f.Within levels)
    (hchange : ∀ block, block.Within levels → (change block).Within levels)
    (h : f.updateBlock b change = .ok g) : g.Within levels := by
  obtain ⟨_, _, h⟩ := bind_eq_ok.mp h
  obtain rfl := Except.ok.inj h
  exact hf.mapBlock hchange

theorem setTerminator {terminator : Terminator} (hf : f.Within levels)
    (hterminator : ∀ o ∈ terminator.operands, o.toJson.nesting ≤ levels + 5)
    (h : f.setTerminator b terminator = .ok g) : g.Within levels := by
  refine hf.updateBlock ?_ h
  exact fun block hblock => ⟨hblock.instructions, hterminator⟩

/-! ## Inlining -/

theorem splitAt {index : Nat} {name : String} (hf : f.Within levels)
    (h : f.splitAt b index name = .ok g) : g.Within levels := by
  obtain ⟨head, hhead, h⟩ := bind_eq_ok.mp h
  obtain rfl := Except.ok.inj h
  have hhead := hf.blocks head (mem_of_block_eq_ok hhead)
  apply List.foldlRecOn (motive := fun g : Function => g.Within levels)
  · refine ⟨List.forall_mem_append.mpr ⟨?_, List.forall_mem_singleton.mpr ?_⟩, hf.values,
      hf.returnType⟩
    · apply Function.Within.blocks (hf.mapBlock fun block hblock => ?_)
      exact ⟨fun i hi => hblock.instructions i (List.mem_of_mem_take hi), List.forall_mem_nil _⟩
    · exact ⟨fun i hi => hhead.instructions i (List.mem_of_mem_drop hi), hhead.terminator⟩
  · intro edited hedited target _
    apply hedited.mapBlock
    intro block hblock
    apply hblock.mapInstructions
    rw [List.forall_mem_map]
    intro i hi
    rw [Instruction.op_mapIncoming]
    exact (hblock.instructions i hi).mapIncoming _

/-- Moving allocas changes no types and no operands. -/
theorem hoistAllocas (hf : f.Within levels) (h : f.hoistAllocas b = .ok g) : g.Within levels := by
  obtain ⟨source, hsource, h⟩ := bind_eq_ok.mp h
  obtain ⟨entry, _, h⟩ := bind_eq_ok.mp h
  obtain rfl := Except.ok.inj h
  have hsource := (hf.blocks source (mem_of_block_eq_ok hsource)).instructions
  apply Within.mapBlock
  · apply hf.mapBlock
    intro block hblock
    exact hblock.mapInstructions fun i hi => hblock.instructions i (List.mem_of_mem_drop hi)
  · intro block hblock
    apply hblock.mapInstructions
    intro i hi
    rcases List.mem_append.mp hi with hi | hi
    · rcases List.mem_append.mp hi with hi | hi
      · exact hblock.instructions i (List.mem_of_mem_take hi)
      · exact hsource i (List.takeWhile_subset _ hi)
    · exact hblock.instructions i (List.mem_of_mem_drop hi)

/-- What the result of a call becomes: poison, what is returned, or a phi of it. -/
theorem bindResult {site : CallSite} {returned : List (Operand × BlockId)} (hf : f.Within levels)
    (hty : site.returnType.toJson.nesting ≤ levels + 3)
    (hreturned : ∀ entry ∈ returned, entry.1.toJson.nesting ≤ levels + 5) :
    (f.bindResult site b returned).Within levels := by
  unfold Function.bindResult
  split
  next => exact hf
  next =>
    apply hf.mapOperands (Operand.fitting_replaceVar _ _)
    rw [Operand.nesting_poison]
    exact Nat.add_le_add_right hty 2
  next => exact hf.mapOperands (Operand.fitting_replaceVar (hreturned _ List.mem_cons_self) _)
  next =>
    apply hf.mapBlock
    intro block hblock
    apply hblock.mapInstructions
    refine List.forall_mem_cons.mpr ⟨⟨?_, ?_⟩, hblock.instructions⟩
    · exact List.forall_mem_singleton.mpr (Nat.le_add_right_of_le (k := 4) hty)
    · exact List.forall_mem_map.mpr hreturned

end Within

end Function

/-- Copying fits if what is passed fits wherever an operand may stand. -/
theorem Renaming.fitting {names : Renaming}
    (h : ∀ entry ∈ names.values, entry.2.toJson.nesting ≤ levels + 5) :
    Operand.Fitting levels names.operand := by
  intro o
  cases o with
  | const c => exact le_max_left _ _
  | var x =>
      rw [operand]
      cases hlookup : names.values.lookup x with
      | none => exact le_max_left _ _
      | some value =>
          obtain ⟨front, back, hvalues, _⟩ := List.lookup_eq_some_iff.mp hlookup
          apply le_max_of_le_right
          exact h (x, value) (hvalues ▸ List.mem_append_right _ List.mem_cons_self)

namespace CallSite

variable {site : CallSite}

/-- Parameters become arguments, and other variables become variables. -/
theorem renaming_fitting (f : Function) (hargs : ∀ o ∈ site.args, o.toJson.nesting ≤ levels + 5) :
    Operand.Fitting levels (site.renaming f).operand := by
  apply Renaming.fitting
  intro entry hentry
  rcases List.mem_append.mp hentry with hentry | hentry
  · obtain ⟨_, harg⟩ := List.of_mem_zip (List.mem_reverse.mp hentry)
    exact hargs entry.2 harg
  · obtain ⟨_, _, rfl⟩ := List.mem_map.mp hentry
    exact Nat.le_add_left 1 _

end CallSite

namespace Function

variable {f g : Function} {b : BlockId} {names : Renaming}

namespace Within

/-- Copies of blocks are within the bounds that the blocks are in. -/
theorem copyBlocks (hf : f.Within levels) (hnames : Operand.Fitting levels names.operand) :
    ∀ block ∈ f.copyBlocks names b, block.Within levels := by
  intro copy hcopy
  obtain ⟨⟨block, id⟩, hblock, rfl⟩ := List.mem_map.mp hcopy
  have hblock := hf.blocks block (List.fst_mem_of_mem_zipIdx hblock)
  constructor
  · rw [List.forall_mem_map]
    intro i hi
    have hoperands := (hblock.instructions i hi).mapOperands hnames
    exact (hoperands.mapDest names.dest).mapIncoming names.block
  · intro o ho
    dsimp only [Renaming.terminator] at ho
    split at ho
    next => cases ho
    next =>
      rw [Terminator.operands_mapTargets, Terminator.operands_mapOperands] at ho
      obtain ⟨old, hold, rfl⟩ := List.mem_map.mp ho
      exact hnames.le (hblock.terminator old hold)

theorem returns (hf : f.Within levels) (hnames : Operand.Fitting levels names.operand) :
    ∀ entry ∈ f.returns names, entry.1.toJson.nesting ≤ levels + 5 := by
  intro entry hentry
  obtain ⟨⟨block, id⟩, hblock, hentry⟩ := List.mem_filterMap.mp hentry
  have hblock := hf.blocks block (List.fst_mem_of_mem_zipIdx hblock)
  dsimp only at hentry
  split at hentry
  next value hvalue =>
    obtain rfl := Option.some.inj hentry
    apply hnames.le (hblock.terminator value _)
    rw [hvalue]
    exact List.mem_singleton_self value
  next => cases hentry

/-- So is a caller when the body of a callee is put in. -/
theorem inlineBody {site : CallSite} {index : Nat} (hf : f.Within levels)
    (hcallee : site.callee.Within levels) (hty : site.returnType.toJson.nesting ≤ levels + 3)
    (hargs : ∀ o ∈ site.args, o.toJson.nesting ≤ levels + 5)
    (h : f.inlineBody site b index = .ok g) : g.Within levels := by
  obtain ⟨split, hoisted, joined, hsplit, hhoisted, hjoined, rfl⟩ := inlineBody_steps h
  have hsplit := hf.splitAt hsplit
  -- the body reads the arguments of the call, so its operands get as deep as those
  have hnames := site.renaming_fitting f hargs
  have hcopied : Within levels { split with
      values := split.values ++ site.callee.innerValues.map Prod.fst
      blocks := split.blocks ++ site.callee.copyBlocks (site.renaming f) f.blocks.length } := by
    refine ⟨List.forall_mem_append.mpr ⟨hsplit.blocks, hcallee.copyBlocks hnames⟩,
      List.forall_mem_append.mpr ⟨hsplit.values, ?_⟩, hsplit.returnType⟩
    intro info hinfo
    obtain ⟨⟨_, id⟩, hvalue, rfl⟩ := List.mem_map.mp hinfo
    exact hcallee.values _ (List.fst_mem_of_mem_zipIdx (List.mem_filter.mp hvalue).1)
  have hjoined := (hcopied.hoistAllocas hhoisted).setTerminator (List.forall_mem_nil _) hjoined
  exact hjoined.bindResult hty (hcallee.returns hnames)

end Within

end Function

/-! ## Constants -/

namespace Constant

/-- How deep an aggregate is nested, in terms of its elements. -/
theorem nesting_aggregate (ty : Ty) (elements : List Constant) :
    (aggregate ty elements).toJson.nesting =
      max ty.toJson.nesting (itemNesting (listToJson elements) + 1) + 2 := by
  simp [toJson, tagged, object, nesting, memberNesting]

theorem nesting_elementPtr (source : Ty) (base : Constant) (indices : List Int64) :
    (elementPtr source base indices).toJson.nesting =
      max source.toJson.nesting (max base.toJson.nesting 1) + 3 := by
  have hindices : itemNesting (indices.map fun index => Json.int index.toInt) = 0 :=
    Nat.le_zero.mp (itemNesting_le.mpr (List.forall_mem_map.mpr fun _ _ => le_rfl))
  simp [toJson, tagged, object, nesting, memberNesting, hindices]

theorem nesting_cast (op : CastOp) (value : Constant) (ty : Ty) :
    (cast op value ty).toJson.nesting = max value.toJson.nesting ty.toJson.nesting + 3 := by
  simp [toJson, CastOp.toJson, tagged, object, nesting, memberNesting]

/-- What stands in a constant is nested no deeper. -/
theorem Part.nesting_le {e c : Constant} (h : e.Part c) :
    e.toJson.nesting ≤ c.toJson.nesting := by
  induction h with
  | whole => exact le_rfl
  | @element ty elements d hmem _ ih =>
      have hd := itemNesting_le.mp le_rfl d.toJson (mem_listToJson.mpr ⟨d, hmem, rfl⟩)
      rw [nesting_aggregate]
      omega
  | base _ ih =>
      rw [nesting_elementPtr]
      omega
  | value _ ih =>
      rw [nesting_cast]
      omega

/-- An undefined value is written shorter than what is taken out for it. -/
theorem nesting_undef_le {tracked : GlobalId → Bool} {c : Constant}
    (h : c.isMoved tracked = true) : (undef c.ty).toJson.nesting ≤ c.toJson.nesting := by
  have hundef : ∀ ty, (undef ty).toJson.nesting = ty.toJson.nesting + 1 := fun _ => by
    simp [toJson, tagged, object, nesting, memberNesting]
  rw [hundef]
  cases c with
  | elementPtr =>
      rw [nesting_elementPtr]
      exact Nat.le_add_left 1 _
  | cast op value ty =>
      rw [nesting_cast, Constant.ty]
      omega
  | global => exact le_rfl
  | _ => cases h

section

variable (tracked : GlobalId → Bool)

mutual

/-- Taking elements out makes an initializer no deeper. -/
theorem nesting_remainder_le : (c : Constant) →
    (c.remainder tracked).toJson.nesting ≤ c.toJson.nesting
  | .aggregate ty elements => by
      have helements := itemNesting_remainders_le elements
      rw [remainder, nesting_aggregate, nesting_aggregate]
      omega
  | .int .. | .null | .undef _ | .poison _ | .bytes _ | .function _ | .global _ | .elementPtr ..
  | .cast .. => by
      rw [remainder]
      · split
        next hmoved => exact nesting_undef_le hmoved
        next => exact le_rfl
      · simp

theorem itemNesting_remainders_le : (cs : List Constant) →
    itemNesting (listToJson (remainders tracked cs)) ≤ itemNesting (listToJson cs)
  | [] => le_rfl
  | c :: cs => by
      rw [remainders, listToJson, listToJson, itemNesting, itemNesting]
      exact max_le_max (nesting_remainder_le c) (itemNesting_remainders_le cs)

end

theorem nesting_bulk_le (c : Constant) : (c.bulk tracked).toJson.nesting ≤ c.toJson.nesting := by
  unfold bulk
  split
  next => exact nesting_remainder_le tracked c
  next => exact le_rfl

end

section

variable (id : FunctionId)

mutual

/-- The placeholder is as deep as the reference that it replaces. -/
theorem nesting_replaceFunction : (c : Constant) →
    (replaceFunction id Plan.placeholder c).toJson.nesting = c.toJson.nesting
  | .function other => by
      rw [replaceFunction]
      split <;> rfl
  | .aggregate ty elements => by
      rw [replaceFunction, nesting_aggregate, nesting_aggregate,
        itemNesting_replaceFunctionAll elements]
  | .elementPtr source base indices => by
      rw [replaceFunction, nesting_elementPtr, nesting_elementPtr, nesting_replaceFunction base]
  | .cast op value ty => by
      rw [replaceFunction, nesting_cast, nesting_cast, nesting_replaceFunction value]
  | .int .. | .null | .undef _ | .poison _ | .bytes _ | .global _ => by
      rw [replaceFunction] <;> simp

theorem itemNesting_replaceFunctionAll : (cs : List Constant) →
    itemNesting (listToJson (replaceFunctionAll id Plan.placeholder cs)) =
      itemNesting (listToJson cs)
  | [] => rfl
  | c :: cs => by
      rw [replaceFunctionAll, listToJson, listToJson, itemNesting, itemNesting,
        nesting_replaceFunction c, itemNesting_replaceFunctionAll cs]

end

end

end Constant

/-- The placeholder is no deeper than a reference. -/
theorem Operand.fitting_replaceFunction (id : FunctionId) :
    Fitting levels (replaceFunction id Plan.placeholder) := by
  intro o
  cases o with
  | var x => exact le_max_left _ _
  | const c =>
      apply le_max_of_le_left
      rw [replaceFunction, nesting_const, nesting_const, c.nesting_replaceFunction]

/-! ## Moving globals -/

structure Draft.Within (levels : Nat) (draft : Draft) : Prop where
  values : ∀ info ∈ draft.values, info.ty.toJson.nesting ≤ levels + 7
  code : ∀ i ∈ draft.code, i.op.Within levels
  edges : ∀ edge ∈ draft.edges, ∀ i ∈ edge.2, i.op.Within levels

/-- Code for another place is written into a draft without code. -/
theorem Draft.Within.clear {draft : Draft} (h : draft.Within levels) :
    { draft with code := [] }.Within levels :=
  ⟨h.values, List.forall_mem_nil _, h.edges⟩

theorem Draft.Within.append {draft : Draft} (h : draft.Within levels) {values : List ValueInfo}
    {code : List Instruction} (hvalues : ∀ info ∈ values, info.ty.toJson.nesting ≤ levels + 7)
    (hcode : ∀ i ∈ code, i.op.Within levels) :
    { draft with values := draft.values ++ values, code := draft.code ++ code }.Within levels where
  values := List.forall_mem_append.mpr ⟨h.values, hvalues⟩
  code := List.forall_mem_append.mpr ⟨h.code, hcode⟩
  edges := h.edges

theorem Operation.within_elementPtr {dest : ValueId} {source : Ty} {base : Operand}
    {indices : List Operand} {inbounds : Bool} (hsource : source.toJson.nesting ≤ levels + 7)
    (hbase : base.toJson.nesting ≤ levels + 5)
    (hindices : ∀ o ∈ indices, o.toJson.nesting ≤ levels + 5) :
    (elementPtr dest source base indices inbounds).Within levels where
  types := List.forall_mem_singleton.mpr hsource
  operands := List.forall_mem_cons.mpr ⟨hbase, hindices⟩

namespace Localized

variable {scope : Localized} {draft draft' : Draft}

/-- What is computed from a constant fits where the constant stood. -/
theorem materialize_within (c : Constant) (hdraft : draft.Within levels) :
    c.toJson.nesting ≤ levels + 6 →
      (scope.materialize c draft).2.Within levels ∧
        (scope.materialize c draft).1.toJson.nesting ≤ c.toJson.nesting + 1 := by
  -- an expression takes three levels itself, so its parts fit in any operation
  apply materialize_induction (P := fun c o next => c.toJson.nesting ≤ levels + 6 →
    next.Within levels ∧ o.toJson.nesting ≤ c.toJson.nesting + 1)
  · exact fun c _ _ => ⟨hdraft, (Operand.nesting_const c).le⟩
  · intro source base indices o next hbase hc
    rw [Constant.nesting_elementPtr] at hc
    obtain ⟨hnext, ho⟩ := hbase (by omega)
    refine ⟨hnext.append (List.forall_mem_singleton.mpr (Nat.zero_le _))
      (List.forall_mem_singleton.mpr ?_), Nat.le_add_left 1 _⟩
    exact Operation.within_elementPtr (by omega) (by omega)
      (List.forall_mem_map.mpr fun _ _ => Operand.nesting_i32_le levels _)
  · intro op value ty o next hvalue hc
    rw [Constant.nesting_cast] at hc
    obtain ⟨hnext, ho⟩ := hvalue (by omega)
    have hty : ty.toJson.nesting ≤ levels + 7 := by omega
    have ho : o.toJson.nesting ≤ levels + 5 := by omega
    refine ⟨hnext.append (List.forall_mem_singleton.mpr hty)
      (List.forall_mem_singleton.mpr ?_), Nat.le_add_left 1 _⟩
    exact ⟨List.forall_mem_singleton.mpr hty, List.forall_mem_singleton.mpr ho⟩

/-- What an operand is replaced with is nested no deeper. -/
theorem expandOperand_within {o o' : Operand} (h : scope.expandOperand o draft = .ok (o', draft'))
    (hdraft : draft.Within levels) {room : Nat} (hroom : room ≤ 7)
    (ho : o.toJson.nesting ≤ levels + room) :
    draft'.Within levels ∧ o'.toJson.nesting ≤ levels + room := by
  rcases expandOperand_cases h with ⟨rfl, rfl⟩ | ⟨c, rfl, hrun⟩
  · exact ⟨hdraft, ho⟩
  · rw [Operand.nesting_const] at ho
    obtain ⟨hwithin, hvalue⟩ := scope.materialize_within c hdraft (by omega)
    rw [hrun] at hwithin hvalue
    exact ⟨hwithin, hvalue.trans ho⟩

theorem expandOperands_within {os os' : List Operand}
    (h : (os.mapM scope.expandOperand) draft = .ok (os', draft')) (hdraft : draft.Within levels)
    {room : Nat} (hroom : room ≤ 7) (hos : ∀ o ∈ os, o.toJson.nesting ≤ levels + room) :
    draft'.Within levels ∧ ∀ o ∈ os', o.toJson.nesting ≤ levels + room :=
  forall_of_mapM_run h hdraft
    fun o ho _ _ _ hs hrun => expandOperand_within hrun hs hroom (hos o ho)

theorem expandIncoming_within {entry entry' : Operand × BlockId}
    (h : scope.expandIncoming entry draft = .ok (entry', draft')) (hdraft : draft.Within levels)
    (hentry : entry.1.toJson.nesting ≤ levels + 5) :
    draft'.Within levels ∧ entry'.1.toJson.nesting ≤ levels + 5 := by
  obtain ⟨computed, hvalue, _, hvalues, hcode, hedges⟩ := exists_of_expandIncoming h
  obtain ⟨hcomputed, hentry'⟩ := expandOperand_within hvalue hdraft.clear (by decide) hentry
  refine ⟨⟨hvalues ▸ hcomputed.values, hcode ▸ hdraft.code, ?_⟩, hentry'⟩
  rw [hedges]
  split
  next => exact hcomputed.edges
  next =>
    exact List.forall_mem_append.mpr
      ⟨hcomputed.edges, List.forall_mem_singleton.mpr hcomputed.code⟩

/-- An operation stays within the bounds when its operands are computed. -/
theorem expandOperation_within {op op' : Operation}
    (h : scope.expandOperation op draft = .ok (op', draft')) (hdraft : draft.Within levels)
    (hop : op.Within levels) : draft'.Within levels ∧ op'.Within levels := by
  rcases exists_of_expandOperation h with
    ⟨dest, ty, incoming, incoming', rfl, rfl, hincoming⟩ | ⟨os, hphi, rfl, hos⟩
  · have hentries := List.forall_mem_map.mp hop.operands
    obtain ⟨hwithin, hentries'⟩ := forall_of_mapM_run hincoming hdraft
      fun entry hentry _ _ _ hs hrun => expandIncoming_within hrun hs (hentries entry hentry)
    exact ⟨hwithin, hop.types, List.forall_mem_map.mpr hentries'⟩
  · obtain ⟨hwithin, hos'⟩ := expandOperands_within hos hdraft op.operandRoom_le hop.operands
    refine ⟨hwithin, hop.of_frame (op.frame_withOperands os) ?_⟩
    rwa [Operation.operands_withOperands (length_mapM_run hos)]

theorem expandInstructions_within {old : List Instruction}
    (h : (old.forM scope.expandInstruction) draft = .ok ((), draft'))
    (hdraft : draft.Within levels) (hold : ∀ i ∈ old, i.op.Within levels) :
    draft'.Within levels := by
  apply expandInstructions_induction h hdraft
  intro i hi first op middle hfirst hop
  obtain ⟨hmiddle, hop⟩ := expandOperation_within hop hfirst (hold i hi)
  refine ⟨hmiddle.values, ?_, hmiddle.edges⟩
  exact List.forall_mem_append.mpr ⟨hmiddle.code, List.forall_mem_singleton.mpr hop⟩

theorem expandBlock_within {block' : Block}
    (h : scope.expandBlock block draft = .ok (block', draft')) (hdraft : draft.Within levels)
    (hblock : block.Within levels) : draft'.Within levels ∧ block'.Within levels := by
  obtain ⟨middle, os, hbody, hos, rfl⟩ := exists_of_expandBlock h
  have hmiddle := expandInstructions_within hbody hdraft.clear hblock.instructions
  obtain ⟨hlast, hos'⟩ := expandOperands_within hos hmiddle (by decide) hblock.terminator
  refine ⟨hlast, hlast.code, ?_⟩
  rwa [Terminator.operands_withOperands (length_mapM_run hos)]

/-- So does a body. -/
theorem expandFunction_within {f g : Function} (h : scope.expandFunction f = .ok g)
    (hf : f.Within levels) : g.Within levels := by
  obtain ⟨blocks, draft, hblocks, h⟩ := exists_of_expandFunction h
  have hempty : Draft.Within levels { values := f.values } :=
    ⟨hf.values, List.forall_mem_nil _, List.forall_mem_nil _⟩
  obtain ⟨hdraft, hexpanded⟩ := forall_of_mapM_run hblocks hempty
    fun block hblock _ _ _ hs hrun => expandBlock_within hrun hs (hf.blocks block hblock)
  have hexpanded : Function.Within levels { f with blocks, values := draft.values } :=
    ⟨hexpanded, hdraft.values, hf.returnType⟩
  refine foldlM_induction (Function.Within levels) ?_ hexpanded h
  intro edge hedge edited next hedited hnext
  refine hedited.updateBlock (fun block hblock => ?_) hnext
  apply hblock.mapInstructions
  exact List.forall_mem_append.mpr ⟨hblock.instructions, hdraft.edges edge hedge⟩

end Localized

end Monolith

import Mathlib.Tactic.Common
import Monolith.Function.Basic

/-! # Rewriting code

Code is rewritten in three ways: its operands are changed, its results are
renamed, and the blocks that its phis list are renamed. Each leaves the rest of
an instruction as it was.
-/

namespace Monolith

variable {op : Operation} {dest : ValueId} {ty : Ty} {incoming : List (Operand × BlockId)}

/-- The variables that the instructions define, in order. -/
def defsOf (instructions : List Instruction) : List ValueId :=
  instructions.filterMap (·.op.dest?)

def Function.instructions (f : Function) : List Instruction := f.blocks.flatMap Block.instructions

def Operation.sources : Operation → List BlockId
  | .phi _ _ incoming => incoming.map Prod.snd
  | _ => []

namespace Operation

theorem sources_of_not_phi (h : op.isPhi = false) : op.sources = [] := by
  cases op with
  | phi => cases h
  | _ => rfl

theorem isPhi_of_isAlloca (h : op.isAlloca = true) : op.isPhi = false := by
  cases op with
  | phi => cases h
  | _ => rfl

theorem isPhi_iff : op.isPhi = true ↔ ∃ dest ty incoming, op = .phi dest ty incoming := by
  cases op <;> simp [isPhi]

/-- Only a call names a function. -/
theorem directCallee?_eq_some {id : FunctionId} (h : op.directCallee? = some id) :
    ∃ dest ty args, op = .call dest ty (.const (.function id)) args := by
  cases op with
  | call dest ty callee args =>
      cases callee with
      | var x => cases h
      | const c =>
          cases c with
          | function other =>
              obtain rfl := Option.some.inj h
              exact ⟨dest, ty, args, rfl⟩
          | _ => cases h
  | _ => cases h

section

variable (g h : Operand → Operand) (op : Operation)

/-- A phi lists the same blocks when its operands are changed. -/
@[simp] theorem sources_mapOperands : (op.mapOperands g).sources = op.sources := by
  cases op with
  | phi dest ty incoming => exact List.map_map
  | _ => rfl

@[simp] theorem dest?_mapOperands : (op.mapOperands g).dest? = op.dest? := by
  cases op <;> rfl

/-- All operands are changed, and none is added or left out. -/
@[simp] theorem operands_mapOperands : (op.mapOperands g).operands = op.operands.map g := by
  cases op <;> simp [mapOperands, operands]

@[simp] theorem isPhi_mapOperands : (op.mapOperands g).isPhi = op.isPhi := by
  cases op <;> rfl

@[simp] theorem isAlloca_mapOperands : (op.mapOperands g).isAlloca = op.isAlloca := by
  cases op <;> rfl

@[simp] theorem mapOperands_id : op.mapOperands id = op := by
  cases op <;> simp [mapOperands]

theorem mapOperands_mapOperands :
    (op.mapOperands g).mapOperands h = op.mapOperands (h ∘ g) := by
  cases op <;> simp [mapOperands]

end

/-- A call names the same function if functions are kept. -/
theorem directCallee?_mapOperands {g : Operand → Operand} (h : ∀ o, (g o).function? = o.function?)
    (op : Operation) : (op.mapOperands g).directCallee? = op.directCallee? := by
  cases op with
  | call _ _ callee _ => exact h callee
  | _ => rfl

/-- What has become a phi was one, of the operands before the change. -/
theorem mapOperands_eq_phi {g : Operand → Operand} (h : op.mapOperands g = .phi dest ty incoming) :
    ∃ old, op = .phi dest ty old ∧ incoming = old.map fun (value, block) => (g value, block) := by
  cases op with
  | phi _ _ old =>
      obtain ⟨rfl, rfl, rfl⟩ := Operation.phi.inj h
      exact ⟨old, rfl, rfl⟩
  | _ => cases h

section

variable (rename : ValueId → ValueId) (op : Operation)

@[simp] theorem sources_mapDest : (op.mapDest rename).sources = op.sources := by
  cases op <;> rfl

/-- The result of an operation is renamed if it has one. -/
@[simp] theorem dest?_mapDest : (op.mapDest rename).dest? = op.dest?.map rename := by
  cases op <;> rfl

@[simp] theorem operands_mapDest : (op.mapDest rename).operands = op.operands := by
  cases op <;> rfl

@[simp] theorem isPhi_mapDest : (op.mapDest rename).isPhi = op.isPhi := by
  cases op <;> rfl

theorem directCallee?_mapDest : (op.mapDest rename).directCallee? = op.directCallee? := by
  cases op <;> rfl

@[simp] theorem isAlloca_mapDest : (op.mapDest rename).isAlloca = op.isAlloca := by
  cases op <;> rfl

end

/-- What has become a phi was one, with the result before it was renamed. -/
theorem mapDest_eq_phi {rename : ValueId → ValueId}
    (h : op.mapDest rename = .phi dest ty incoming) :
    ∃ old, op = .phi old ty incoming ∧ dest = rename old := by
  cases op with
  | phi old _ _ =>
      obtain ⟨rfl, rfl, rfl⟩ := Operation.phi.inj h
      exact ⟨old, rfl, rfl⟩
  | _ => cases h

section

variable (rename : BlockId → BlockId) (op : Operation)

/-- Each block that a phi lists is renamed where it stands. -/
@[simp] theorem sources_mapIncoming :
    (op.mapIncoming rename).sources = op.sources.map rename := by
  cases op with
  | phi dest ty incoming => simp [mapIncoming, sources]
  | _ => rfl

@[simp] theorem dest?_mapIncoming : (op.mapIncoming rename).dest? = op.dest? := by
  cases op <;> rfl

@[simp] theorem operands_mapIncoming : (op.mapIncoming rename).operands = op.operands := by
  cases op <;> simp [mapIncoming, operands]

@[simp] theorem isPhi_mapIncoming : (op.mapIncoming rename).isPhi = op.isPhi := by
  cases op <;> rfl

@[simp] theorem isAlloca_mapIncoming : (op.mapIncoming rename).isAlloca = op.isAlloca := by
  cases op <;> rfl

end

/-- Only phis list blocks. -/
theorem mapIncoming_of_not_phi (h : op.isPhi = false) (rename : BlockId → BlockId) :
    op.mapIncoming rename = op := by
  cases op with
  | phi => simp [isPhi] at h
  | _ => rfl

/-- What has become a phi was one, of the blocks before they were renamed. -/
theorem mapIncoming_eq_phi {rename : BlockId → BlockId}
    (h : op.mapIncoming rename = .phi dest ty incoming) :
    ∃ old, op = .phi dest ty old ∧
      incoming = old.map fun (value, block) => (value, rename block) := by
  cases op with
  | phi _ _ old =>
      obtain ⟨rfl, rfl, rfl⟩ := Operation.phi.inj h
      exact ⟨old, rfl, rfl⟩
  | _ => cases h

end Operation

namespace Instruction

variable (i : Instruction)

@[simp] theorem op_mapOperands (g : Operand → Operand) :
    (i.mapOperands g).op = i.op.mapOperands g := rfl

@[simp] theorem op_mapDest (rename : ValueId → ValueId) :
    (i.mapDest rename).op = i.op.mapDest rename := rfl

@[simp] theorem op_mapIncoming (rename : BlockId → BlockId) :
    (i.mapIncoming rename).op = i.op.mapIncoming rename := rfl

@[simp] theorem mapOperands_id : i.mapOperands id = i := by
  simp [mapOperands]

theorem mapOperands_mapOperands (g h : Operand → Operand) :
    (i.mapOperands g).mapOperands h = i.mapOperands (h ∘ g) := by
  simp [mapOperands, Operation.mapOperands_mapOperands]

@[simp] theorem mapIncoming_id : i.mapIncoming id = i := by
  obtain ⟨op, comment⟩ := i
  cases op <;> simp [mapIncoming, Operation.mapIncoming]

theorem mapIncoming_mapIncoming (rename other : BlockId → BlockId) :
    (i.mapIncoming rename).mapIncoming other = i.mapIncoming (other ∘ rename) := by
  obtain ⟨op, comment⟩ := i
  cases op <;> simp [mapIncoming, Operation.mapIncoming]

theorem mapIncoming_of_not_phi {i : Instruction} (h : i.op.isPhi = false)
    (rename : BlockId → BlockId) : i.mapIncoming rename = i := by
  rw [mapIncoming, Operation.mapIncoming_of_not_phi h]

/-- Only the blocks that a phi lists matter for how they are renamed. -/
theorem mapIncoming_congr {i : Instruction} {rename other : BlockId → BlockId}
    (h : ∀ dest ty incoming, i.op = .phi dest ty incoming →
      ∀ b ∈ incoming.map Prod.snd, rename b = other b) :
    i.mapIncoming rename = i.mapIncoming other := by
  obtain ⟨op, comment⟩ := i
  cases op with
  | phi dest ty incoming =>
      have hsame : incoming.map (fun (value, block) => (value, rename block)) =
          incoming.map (fun (value, block) => (value, other block)) :=
        List.map_congr_left fun entry hentry =>
          Prod.ext rfl (h dest ty incoming rfl entry.2 (List.mem_map_of_mem hentry))
      exact congrArg (fun entries => Instruction.mk (.phi dest ty entries) comment) hsame
  | _ => rfl

end Instruction

theorem defsOf_append (front back : List Instruction) :
    defsOf (front ++ back) = defsOf front ++ defsOf back :=
  List.filterMap_append

theorem mem_defsOf {instructions : List Instruction} {x : ValueId} :
    x ∈ defsOf instructions ↔ ∃ i ∈ instructions, i.op.dest? = some x :=
  List.mem_filterMap

@[simp] theorem defsOf_nil : defsOf [] = [] := rfl

theorem defsOf_cons (i : Instruction) (rest : List Instruction) :
    defsOf (i :: rest) = i.op.dest?.toList ++ defsOf rest := by
  cases h : i.op.dest? <;> simp [defsOf, h]

@[simp] theorem defsOf_mapOperands (g : Operand → Operand) (instructions : List Instruction) :
    defsOf (instructions.map (·.mapOperands g)) = defsOf instructions := by
  simp [defsOf, List.filterMap_map, Function.comp_def]

@[simp] theorem defsOf_mapIncoming (rename : BlockId → BlockId)
    (instructions : List Instruction) :
    defsOf (instructions.map (·.mapIncoming rename)) = defsOf instructions := by
  simp [defsOf, List.filterMap_map, Function.comp_def]

section

variable (g h : Operand → Operand)

namespace Terminator

variable (rename : BlockId → BlockId) (t : Terminator)

/-- A value that is returned and a condition are changed, if there are any. -/
@[simp] theorem operands_mapOperands : (t.mapOperands g).operands = t.operands.map g := by
  cases t with
  | ret value => cases value <;> rfl
  | _ => rfl

/-- Control goes to the same blocks when operands are changed. -/
@[simp] theorem targets_mapOperands : (t.mapOperands g).targets = t.targets := by
  cases t <;> rfl

@[simp] theorem operands_mapTargets : (t.mapTargets rename).operands = t.operands := by
  cases t <;> rfl

@[simp] theorem targets_mapTargets : (t.mapTargets rename).targets = t.targets.map rename := by
  cases t <;> rfl

@[simp] theorem mapOperands_id : t.mapOperands id = t := by
  cases t <;> simp [mapOperands]

theorem mapOperands_mapOperands :
    (t.mapOperands g).mapOperands h = t.mapOperands (h ∘ g) := by
  cases t <;> simp [mapOperands]

end Terminator

namespace Block

variable (change : List Instruction → List Instruction) (block : Block)

@[simp] theorem instructions_mapOperands :
    (block.mapOperands g).instructions = block.instructions.map (·.mapOperands g) := rfl

@[simp] theorem terminator_mapOperands :
    (block.mapOperands g).terminator = block.terminator.mapOperands g := rfl

@[simp] theorem instructions_mapInstructions :
    (block.mapInstructions change).instructions = change block.instructions := rfl

@[simp] theorem terminator_mapInstructions :
    (block.mapInstructions change).terminator = block.terminator := rfl

/-- The operands of a block are those of its instructions and of its terminator, all changed. -/
@[simp] theorem operands_mapOperands : (block.mapOperands g).operands = block.operands.map g := by
  simp [operands, List.flatMap_map, List.map_flatMap]

theorem mapOperands_id : block.mapOperands id = block := by
  simp [mapOperands]

theorem mapOperands_mapOperands :
    (block.mapOperands g).mapOperands h = block.mapOperands (h ∘ g) := by
  simp [mapOperands, Instruction.mapOperands_mapOperands, Terminator.mapOperands_mapOperands]

@[simp] theorem defs_mapOperands : (block.mapOperands g).defs = block.defs :=
  defsOf_mapOperands g block.instructions

end Block

@[simp] theorem Function.operands_mapOperands (f : Function) :
    (f.mapOperands g).operands = f.operands.map g := by
  simp [operands, mapOperands, List.flatMap_map, List.map_flatMap]

end

/-- Changing a block takes what it had and adds what it has then. -/
theorem flatMap_modify_perm {α : Type} {blocks : List Block} {b : BlockId} {block : Block}
    (hblock : blocks[b]? = some block) (g : Block → Block) (view : Block → List α) :
    ((blocks.modify b g).flatMap view ++ view block).Perm
      (blocks.flatMap view ++ view (g block)) := by
  induction blocks generalizing b with
  | nil => simp at hblock
  | cons first rest ih =>
      cases b with
      | zero =>
          obtain rfl := Option.some.inj hblock
          rw [List.modify_zero_cons, List.flatMap_cons, List.flatMap_cons, List.append_assoc]
          exact List.perm_append_comm.trans (List.perm_append_comm.append_right _)
      | succ b =>
          rw [List.modify_succ_cons, List.flatMap_cons, List.flatMap_cons, List.append_assoc,
            List.append_assoc]
          exact (ih hblock).append_left _

theorem count_flatMap_modify {blocks : List Block} {b : BlockId} {block : Block}
    (hblock : blocks[b]? = some block) (g : Block → Block) (x : ValueId) :
    ((blocks.modify b g).flatMap Block.defs).count x + block.defs.count x =
      (blocks.flatMap Block.defs).count x + (g block).defs.count x := by
  rw [← List.count_append, ← List.count_append]
  exact (flatMap_modify_perm hblock g Block.defs).count_eq x

end Monolith

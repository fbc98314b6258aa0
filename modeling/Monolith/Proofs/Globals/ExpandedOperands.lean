import Monolith.Proofs.Globals.ExpansionSteps
import Monolith.Proofs.Globals.LocalizedBody

/-! # Operands of expanded code

Code is expanded operand by operand. So whether the code that comes out has operands of some kind
can be told from the operands that went in, if that is so for each single operand. What is put in
front of a function has such operands just if something of the kind is stored for an initializer.
-/

namespace Monolith

def anyOperand (p : Operand → Bool) (code : List Instruction) : Bool :=
  code.any fun i => i.op.operands.any p

section

variable (p : Operand → Bool)

@[simp]
theorem anyOperand_cons (i : Instruction) (code : List Instruction) :
    anyOperand p (i :: code) = (i.op.operands.any p || anyOperand p code) := List.any_cons

@[simp]
theorem anyOperand_append (code more : List Instruction) :
    anyOperand p (code ++ more) = (anyOperand p code || anyOperand p more) := List.any_append

theorem anyOperand_singleton (i : Instruction) :
    anyOperand p [i] = i.op.operands.any p := Bool.or_false _

theorem Block.any_operands (block : Block) : block.operands.any p =
    (anyOperand p block.instructions || block.terminator.operands.any p) := by
  rw [operands, List.any_append, List.any_flatMap, anyOperand]

theorem Function.any_operands (f : Function) :
    f.operands.any p = f.blocks.any fun block => block.operands.any p := by
  rw [operands, List.any_flatMap]

/-- Code in front of the entry puts its operands between those of the function. -/
theorem Function.exists_operands_prepend (f : Function) (front : List Instruction)
    (values : List ValueInfo) (hentry : f.entry < f.blocks.length) : ∃ first last,
      f.operands = first ++ last ∧ (f.prepend front values).operands =
        first ++ (front.flatMap (fun i => i.op.operands) ++ last) := by
  refine ⟨(f.blocks.take f.entry).flatMap Block.operands,
    (f.blocks.drop f.entry).flatMap Block.operands, ?_, ?_⟩
  · rw [← List.flatMap_append, List.take_append_drop, operands]
  · rw [operands, prepend, List.modify_eq_take_cons_drop hentry, List.drop_eq_getElem_cons hentry]
    simp only [List.flatMap_append, List.flatMap_cons, Block.operands, Block.mapInstructions,
      List.append_assoc]

theorem Function.any_operands_prepend (f : Function) (front : List Instruction)
    (values : List ValueInfo) (hentry : f.entry < f.blocks.length) :
    (f.prepend front values).operands.any p = (anyOperand p front || f.operands.any p) := by
  obtain ⟨first, last, hold, hnew⟩ := f.exists_operands_prepend front values hentry
  rw [hold, hnew, List.any_append, List.any_append, List.any_append, List.any_flatMap,
    Bool.or_left_comm, anyOperand]

end

def Edges.anyOperand (p : Operand → Bool) (edges : Edges) : Bool :=
  edges.any fun edge => Monolith.anyOperand p edge.2

def Draft.anyOperand (p : Operand → Bool) (draft : Draft) : Bool :=
  Monolith.anyOperand p draft.code || Edges.anyOperand p draft.edges

/-- If each step moves what it finds in its entry into its result or into the state, all that
is in the entries is in the results or in the state in the end. -/
theorem any_mapM_run {ε σ α β : Type} {f : α → StateT σ (Except ε) β} {A : α → Bool} {B : β → Bool}
    {S : σ → Bool}
    (hstep : ∀ {a b s s'}, f a s = .ok (b, s') → (B b || S s') = (A a || S s))
    {entries : List α} {results : List β} {s s' : σ}
    (h : (entries.mapM f) s = .ok (results, s')) :
    (results.any B || S s') = (entries.any A || S s) := by
  induction entries generalizing results s with
  | nil =>
      obtain ⟨rfl, rfl⟩ := Prod.mk.inj (Except.ok.inj h)
      rfl
  | cons a entries ih =>
      obtain ⟨b, next, rest, hfirst, hrest, rfl⟩ := exists_of_mapM_cons_run h
      calc ((b :: rest).any B || S s')
        _ = (B b || (rest.any B || S s')) := by rw [List.any_cons, Bool.or_assoc]
        _ = (entries.any A || (B b || S next)) := by rw [ih hrest, Bool.or_left_comm]
        _ = ((a :: entries).any A || S s) := by
          rw [hstep hfirst, List.any_cons, Bool.or_left_comm, Bool.or_assoc]

/-- Putting code at the ends of blocks puts its operands there. -/
theorem Edges.any_spill (p : Operand → Bool) (edges : Edges) {blocks : List Block}
    (h : ∀ edge ∈ edges, edge.1 < blocks.length) :
    ((edges.spill blocks).any fun block => block.operands.any p) =
      ((blocks.any fun block => block.operands.any p) || edges.anyOperand p) := by
  induction edges generalizing blocks with
  | nil => exact (Bool.or_false _).symm
  | cons edge edges ih =>
      obtain ⟨hedge, hedges⟩ := List.forall_mem_cons.mp h
      have hmodify : ((blocks.modify edge.1 fun block =>
          block.mapInstructions (· ++ edge.2)).any fun block => block.operands.any p) =
            ((blocks.any fun block => block.operands.any p) || Monolith.anyOperand p edge.2) := by
        rw [List.modify_eq_take_cons_drop hedge]
        conv => rhs; rw [← List.take_append_drop edge.1 blocks, List.drop_eq_getElem_cons hedge]
        simp only [List.any_append, List.any_cons, Block.any_operands, Block.mapInstructions,
          anyOperand_append]
        ac_rfl
      change (spill edges _).any _ = _
      rw [ih (by simpa using hedges), hmodify, anyOperand, anyOperand, List.any_cons, Bool.or_assoc]

namespace Localized

variable {scope : Localized} {draft draft' : Draft} {before after : Operand → Bool}

/-- Computing an operand of the kind before writes operands of the kind after, and only that
does. -/
def Carries (scope : Localized) (before after : Operand → Bool) : Prop :=
  ∀ ⦃o o' draft draft'⦄, scope.expandOperand o draft = .ok (o', draft') →
    (after o' || anyOperand after draft'.code) = (before o || anyOperand after draft.code)

/-- A kind of operand is carried if it is told from what a constant expression is computed of,
and from the constants that are not computed. -/
theorem carries_of_kept (hvar : ∀ x, before (.var x) = false ∧ after (.var x) = false)
    (hindex : ∀ value, after (Operand.i32 value) = false)
    (helementPtr : ∀ source base indices,
      before (.const (.elementPtr source base indices)) = before (.const base))
    (hcast : ∀ op value ty, before (.const (.cast op value ty)) = before (.const value))
    (hkept : ∀ c, (c.isExpr = true → c.globals.any scope.tracks = false) →
      after (.const c) = before (.const c)) : scope.Carries before after := by
  intro o o' draft draft' h
  cases o with
  | var x =>
      obtain ⟨rfl, rfl⟩ := Prod.mk.inj (Except.ok.inj h)
      rw [(hvar x).1, (hvar x).2]
  | const c =>
      rcases expandOperand_const h with ⟨hnone, rfl, rfl⟩ | ⟨_, hrun⟩
      · rw [hkept c fun _ => hnone]
      obtain ⟨rfl, rfl⟩ := Prod.mk.inj hrun
      apply materialize_induction (P := fun c o next =>
        (after o || anyOperand after next.code) =
          (before (.const c) || anyOperand after draft.code))
      · intro c hc
        rw [hkept c hc]
      · intro source base indices o next hnext
        have hindices : (indices.map Operand.i32).any after = false := by
          rw [List.any_map, List.any_eq_false]
          exact fun value _ h => Bool.false_ne_true ((hindex value).symm.trans h)
        rw [helementPtr, ← hnext, (hvar _).2, anyOperand_append, anyOperand_singleton,
          Operation.operands, List.any_cons, hindices, Bool.or_false, Bool.false_or, Bool.or_comm]
      · intro op value ty o next hnext
        rw [hcast, ← hnext, (hvar _).2, anyOperand_append, anyOperand_singleton,
          Operation.operands, List.any_cons, List.any_nil, Bool.or_false, Bool.false_or,
          Bool.or_comm]

theorem edges_materialize (c : Constant) (draft : Draft) :
    (scope.materialize c draft).2.edges = draft.edges := by
  apply materialize_induction (P := fun _ _ next => next.edges = draft.edges)
  · exact fun _ _ => rfl
  · exact fun _ _ _ _ _ hnext => hnext
  · exact fun _ _ _ _ _ hnext => hnext

theorem edges_expandOperand {o o' : Operand}
    (h : scope.expandOperand o draft = .ok (o', draft')) : draft'.edges = draft.edges := by
  rcases expandOperand_cases h with ⟨_, rfl⟩ | ⟨c, _, hrun⟩
  · rfl
  · exact (congrArg (·.2.edges) hrun).symm.trans (edges_materialize c draft)

theorem expandOperands_carried (hcarries : scope.Carries before after) {os os' : List Operand}
    (h : (os.mapM scope.expandOperand) draft = .ok (os', draft')) :
    (os'.any after || draft'.anyOperand after) = (os.any before || draft.anyOperand after) := by
  refine any_mapM_run (fun hstep => ?_) h
  rw [Draft.anyOperand, Draft.anyOperand, edges_expandOperand hstep, ← Bool.or_assoc,
    hcarries hstep, Bool.or_assoc]

theorem expandIncoming_carried (hcarries : scope.Carries before after)
    {entry entry' : Operand × BlockId}
    (h : scope.expandIncoming entry draft = .ok (entry', draft')) :
    (after entry'.1 || draft'.anyOperand after) =
      (before entry.1 || draft.anyOperand after) := by
  obtain ⟨computed, hvalue, _, _, hcode, hedges⟩ := exists_of_expandIncoming h
  have hspilled : Edges.anyOperand after draft'.edges =
      (Edges.anyOperand after draft.edges || anyOperand after computed.code) := by
    rw [hedges, edges_expandOperand hvalue]
    split
    next hempty =>
      rw [List.isEmpty_iff.mp hempty]
      exact (Bool.or_false _).symm
    next => simp [Edges.anyOperand]
  have hcomputed : (after entry'.1 || anyOperand after computed.code) = before entry.1 :=
    (hcarries hvalue).trans (Bool.or_false _)
  rw [Draft.anyOperand, Draft.anyOperand, hcode, hspilled, ← hcomputed]
  ac_rfl

theorem expandOperation_carried (hcarries : scope.Carries before after) {op op' : Operation}
    (h : scope.expandOperation op draft = .ok (op', draft')) :
    (op'.operands.any after || draft'.anyOperand after) =
      (op.operands.any before || draft.anyOperand after) := by
  rcases exists_of_expandOperation h with
    ⟨dest, ty, incoming, incoming', rfl, rfl, hincoming⟩ | ⟨os, _, rfl, hos⟩
  · rw [Operation.operands, Operation.operands, List.any_map, List.any_map]
    exact any_mapM_run (fun hstep => expandIncoming_carried hcarries hstep) hincoming
  · rw [Operation.operands_withOperands (length_mapM_run hos)]
    exact expandOperands_carried hcarries hos

theorem expandInstructions_carried (hcarries : scope.Carries before after)
    {old : List Instruction} (h : (old.forM scope.expandInstruction) draft = .ok ((), draft')) :
    draft'.anyOperand after = (anyOperand before old || draft.anyOperand after) := by
  induction old generalizing draft with
  | nil =>
      obtain ⟨_, rfl⟩ := Prod.mk.inj (Except.ok.inj h)
      rfl
  | cons i old ih =>
      obtain ⟨⟨_, next⟩, hfirst, h⟩ := bind_eq_ok.mp h
      obtain ⟨op, middle, hop, rfl⟩ := exists_of_expandInstruction hfirst
      have hwritten : Draft.anyOperand after
          { middle with code := middle.code ++ [{ i with op }] } =
            (op.operands.any after || middle.anyOperand after) := by
        simp only [Draft.anyOperand, anyOperand_append, anyOperand_singleton]
        ac_rfl
      rw [ih h, hwritten, expandOperation_carried hcarries hop, anyOperand_cons]
      ac_rfl

theorem expandBlock_carried (hcarries : scope.Carries before after) {block block' : Block}
    (h : scope.expandBlock block draft = .ok (block', draft')) :
    (block'.operands.any after || Edges.anyOperand after draft'.edges) =
      (block.operands.any before || Edges.anyOperand after draft.edges) := by
  obtain ⟨middle, os, hbody, hos, rfl⟩ := exists_of_expandBlock h
  have hlast := expandOperands_carried hcarries hos
  rw [expandInstructions_carried hcarries hbody, Draft.anyOperand, Draft.anyOperand] at hlast
  rw [Block.any_operands, Block.any_operands]
  dsimp only
  rw [Terminator.operands_withOperands (length_mapM_run hos)]
  calc (anyOperand after draft'.code || os.any after || Edges.anyOperand after draft'.edges)
    _ = (os.any after ||
          (anyOperand after draft'.code || Edges.anyOperand after draft'.edges)) := by ac_rfl
    _ = (block.terminator.operands.any before ||
          (anyOperand before block.instructions || Edges.anyOperand after draft.edges)) := hlast
    _ = (anyOperand before block.instructions || block.terminator.operands.any before ||
          Edges.anyOperand after draft.edges) := by ac_rfl

/-- An expanded function has operands of the kind after just if the function had some of the kind
before. -/
theorem expandFunction_carried (hcarries : scope.Carries before after) {f g : Function}
    (h : scope.expandFunction f = .ok g) : g.operands.any after = f.operands.any before := by
  obtain ⟨blocks, draft, hblocks, h⟩ := exists_of_expandFunction h
  obtain ⟨rfl, hlt⟩ := spill_of_foldlM h
  have hall := any_mapM_run (fun hstep => expandBlock_carried hcarries hstep) hblocks
  rw [Function.any_operands, Function.any_operands]
  exact (Edges.any_spill after draft.edges hlt).trans (hall.trans (Bool.or_false _))

end Localized

/-! ## What is put in front -/

section

variable {p : Operand → Bool} (hvar : ∀ x, p (.var x) = false)
  (hindex : ∀ value, p (Operand.i32 value) = false) {tracked : GlobalId → Bool}

include hvar hindex

theorem any_elementStores (source : Ty) (slot next : ValueId)
    (entries : List (List Nat × Constant)) :
    anyOperand p (elementStores source (.var slot) next entries) =
      entries.any fun entry => p (.const entry.2) := by
  induction entries generalizing next with
  | nil => rfl
  | cons entry entries ih =>
      obtain ⟨path, value⟩ := entry
      have hindices : ((0 :: path).map fun index =>
          Operand.i32 (Int64.ofNat index)).any p = false := by
        rw [List.any_map, List.any_eq_false]
        exact fun index _ h => Bool.false_ne_true ((hindex _).symm.trans h)
      rw [elementStores, anyOperand_cons, anyOperand_cons, ih, Operation.operands,
        Operation.operands, List.any_cons, hindices]
      simp [hvar]

/-- Whether something is stored for the initializer that is of the kind. -/
theorem any_initializerStores (slot next : ValueId) (globals : List Global) :
    anyOperand p (initializerStores tracked slot next globals) = globals.any fun g =>
      g.initializer.any fun c => p (.const (c.bulk tracked)) ||
        (c.separate tracked).any fun entry => p (.const entry.2) := by
  induction globals generalizing slot next with
  | nil => rfl
  | cons g globals ih =>
      rw [initializerStores, anyOperand_append, ih, List.any_cons]
      congr 1
      -- what remains is about the stores of one global
      unfold Global.stores Global.elements
      cases g.initializer with
      | none => rfl
      | some c =>
          dsimp only
          rw [Option.any_some, anyOperand_cons, any_elementStores hvar hindex]
          simp [Operation.operands, hvar]

/-- Whether something of the kind is put in front of a function. -/
theorem Localized.any_front (scope : Localized) (first : ValueId) :
    anyOperand p (scope.allocas first ++ scope.stores first) = scope.globals.any fun entry =>
      entry.2.initializer.any fun c => p (.const (c.bulk scope.tracks)) ||
        (c.separate scope.tracks).any fun entry => p (.const entry.2) := by
  have hallocas : anyOperand p (scope.allocas first) = false := by
    rw [anyOperand, List.any_eq_false]
    intro i hi
    obtain ⟨_, _, rfl⟩ := List.mem_map.mp hi
    exact Bool.false_ne_true
  rw [anyOperand_append, hallocas, Bool.false_or, Localized.stores,
    any_initializerStores hvar hindex, List.any_map]
  rfl

end

end Monolith

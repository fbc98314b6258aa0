import Monolith.Proofs.Flattening.FlattenedModule
import Monolith.Proofs.Globals.LocalizedBody
import Monolith.Proofs.Inlining.PlainCalls
import Monolith.Proofs.Verify.ClosedBodies

/-! # Calls that last

Once calls have been inlined, no pass adds or removes a direct call of a function that is kept:
erasing other functions, pruning, moving globals into the stack and sweeping leave it where it
is.
-/

namespace Monolith

variable {id : FunctionId} {op : Operation}

def calleesOf (code : List Instruction) : List FunctionId := code.filterMap (·.op.directCallee?)

theorem calleesOf_append (code more : List Instruction) :
    calleesOf (code ++ more) = calleesOf code ++ calleesOf more :=
  List.filterMap_append

theorem calleesOf_of_not_call {code : List Instruction} (h : ∀ i ∈ code, i.op.isCall = false) :
    calleesOf code = [] := by
  refine List.filterMap_eq_nil_iff.mpr fun i hi => ?_
  have hcall := h i hi
  cases hop : i.op with
  | call dest ty callee args =>
      rw [hop] at hcall
      cases hcall
  | _ => rfl

theorem calleesOf_singleton (i : Instruction) : calleesOf [i] = i.op.directCallee?.toList := by
  cases h : i.op.directCallee? <;> simp [calleesOf, h]

namespace Function

variable {f g : Function}

/-- The functions that are called by name, block by block. -/
theorem directCallees_eq_flatMap (f : Function) :
    f.directCallees = f.blocks.flatMap fun block => calleesOf block.instructions := by
  simp only [directCallees, callees, calleesOf, List.filterMap_flatMap, List.filterMap_filterMap]
  rfl

theorem mem_directCallees : id ∈ f.directCallees ↔ ∃ o ∈ f.callees, o.function? = some id :=
  List.mem_filterMap

/-! ## Changes in place -/

theorem callees_mapOperands (f : Function) (change : Operand → Operand) :
    (f.mapOperands change).callees = f.callees.map change := by
  simp only [callees, mapOperands, Block.mapOperands, List.flatMap_map, List.map_flatMap,
    List.filterMap_map, List.map_filterMap, Function.comp_def, Instruction.op_mapOperands,
    Operation.callee?_mapOperands]

/-- Changing operands keeps the direct calls of a function if it keeps that function. -/
theorem mem_directCallees_mapOperands {change : Operand → Operand}
    (h : ∀ o : Operand, (change o).function? = some id ↔ o.function? = some id) :
    id ∈ (f.mapOperands change).directCallees ↔ id ∈ f.directCallees := by
  simp only [mem_directCallees, callees_mapOperands, List.mem_map, exists_exists_and_eq_and, h]

theorem directCallees_mapBlock (f : Function) (b : BlockId) {change : Block → Block}
    (hchange : ∀ block, calleesOf (change block).instructions = calleesOf block.instructions) :
    (f.mapBlock b change).directCallees = f.directCallees := by
  rw [directCallees_eq_flatMap, directCallees_eq_flatMap, List.flatMap_def, List.flatMap_def]
  exact congrArg List.flatten (map_blocks_mapBlock fun block _ => hchange block)

end Function

theorem Operand.function?_replaceFunction {other : FunctionId} (hne : other ≠ id) {c : Constant}
    (hc : c.function? = none) (o : Operand) :
    (o.replaceFunction other c).function? = some id ↔ o.function? = some id := by
  cases o with
  | var => rfl
  | const value =>
      cases value with
      | function name =>
          simp only [replaceFunction, Constant.replaceFunction, function?]
          split
          next heq =>
            subst heq
            rw [hc]
            simp [Constant.function?, hne]
          next => rfl
      | _ => rfl

/-! ## Sweeping -/

/-- A call that names a function is not one of poison. -/
theorem Operation.isDeadCall_of_directCallee? (h : op.directCallee? = some id) :
    op.isDeadCall = false := by
  obtain ⟨dest, ty, args, rfl⟩ := directCallee?_eq_some h
  rfl

/-- Sweeping removes only calls of poison. -/
theorem Function.mem_directCallees_sweep {f : Function} :
    id ∈ f.sweep.directCallees ↔ id ∈ f.directCallees := by
  have hfill : ∀ o : Operand, (o.fill f.deadResults).function? = some id ↔
      o.function? = some id := by
    intro o
    cases o with
    | const => rfl
    | var x =>
        rw [Operand.fill]
        cases f.deadResults.lookup x <;> rfl
  have hdropped : f.dropDeadCalls.directCallees = f.directCallees := by
    simp only [directCallees_eq_flatMap, dropDeadCalls, List.flatMap_map, Block.mapInstructions,
      calleesOf, List.filterMap_filter]
    refine congrArg (List.flatMap · _) (funext fun block => List.filterMap_congr fun i _ => ?_)
    cases hcallee : i.op.directCallee? with
    | none => simp
    | some callee => simp [Operation.isDeadCall_of_directCallee? hcallee]
  rw [sweep_eq, mem_directCallees_mapOperands hfill, hdropped]

/-! ## Moving globals -/

theorem Operation.directCallee?_withOperands {os : List Operand}
    (h : os.map Operand.function? = op.operands.map Operand.function?) :
    (op.withOperands os).directCallee? = op.directCallee? := by
  cases op with
  | call dest ty callee args =>
      obtain ⟨first, rest, rfl, hfirst, _⟩ := List.map_eq_cons_iff.mp h
      exact hfirst
  | _ =>
      unfold withOperands
      split <;> first | rfl | simp_all

def Draft.edgeCallees (draft : Draft) : List FunctionId :=
  draft.edges.flatMap fun edge => calleesOf edge.2

/-- What has been written from the one draft to the other calls no function by name. -/
structure Draft.Quiet (draft draft' : Draft) : Prop where
  code : calleesOf draft'.code = calleesOf draft.code
  edges : draft'.edgeCallees = draft.edgeCallees

namespace Draft.Quiet

theorem refl (draft : Draft) : draft.Quiet draft := ⟨rfl, rfl⟩

theorem trans {first next last : Draft} (h : first.Quiet next) (h' : next.Quiet last) :
    first.Quiet last :=
  ⟨h'.code.trans h.code, h'.edges.trans h.edges⟩

theorem emit {draft draft' : Draft} (h : draft.Quiet draft') {i : Instruction}
    (hi : i.op.directCallee? = none) (values : List ValueInfo) :
    draft.Quiet { draft' with values, code := draft'.code ++ [i] } where
  code := by
    rw [calleesOf_append, h.code, calleesOf_singleton, hi]
    exact List.append_nil _
  edges := h.edges

end Draft.Quiet

namespace Localized

variable {scope : Localized} {draft draft' : Draft}

/-- What is computed is no function, unless it was one and is left as it is. -/
theorem materialize_quiet (c : Constant) (draft : Draft) :
    (scope.materialize c draft).1.function? = c.function? ∧
      draft.Quiet (scope.materialize c draft).2 := by
  apply materialize_induction (P := fun c o next =>
    o.function? = c.function? ∧ draft.Quiet next)
  · exact fun _ _ => ⟨rfl, .refl draft⟩
  · exact fun _ _ _ _ _ hnext => ⟨rfl, hnext.2.emit rfl _⟩
  · exact fun _ _ _ _ _ hnext => ⟨rfl, hnext.2.emit rfl _⟩

/-- Computing an operand calls nothing, and neither makes nor hides a function. -/
theorem expandOperand_quiet {o o' : Operand}
    (h : scope.expandOperand o draft = .ok (o', draft')) :
    o'.function? = o.function? ∧ draft.Quiet draft' := by
  rcases expandOperand_cases h with ⟨rfl, rfl⟩ | ⟨c, rfl, hrun⟩
  · exact ⟨rfl, .refl draft'⟩
  · have hquiet := scope.materialize_quiet c draft
    rwa [hrun] at hquiet

theorem expandOperands_quiet {os os' : List Operand}
    (h : (os.mapM scope.expandOperand) draft = .ok (os', draft')) :
    os'.map Operand.function? = os.map Operand.function? ∧ draft.Quiet draft' :=
  ⟨map_eq_of_mapM_run h fun _ _ _ _ ho => (expandOperand_quiet ho).1,
    rel_of_mapM_run h .refl .trans fun _ _ _ _ ho => (expandOperand_quiet ho).2⟩

/-- The code for an operand of a phi calls nothing either. -/
theorem expandIncoming_quiet {entry entry' : Operand × BlockId}
    (h : scope.expandIncoming entry draft = .ok (entry', draft')) : draft.Quiet draft' := by
  -- the code of the block is put aside, so the edge gets code that begins with nothing
  obtain ⟨computed, hvalue, _, _, hcode, hedges⟩ := exists_of_expandIncoming h
  obtain ⟨_, hquiet, hold⟩ := expandOperand_quiet hvalue
  refine ⟨by rw [hcode], ?_⟩
  change computed.edgeCallees = draft.edgeCallees at hold
  rw [← hold, Draft.edgeCallees, Draft.edgeCallees, hedges]
  split
  next => rfl
  next =>
    rw [List.flatMap_append, List.flatMap_singleton, hquiet]
    exact List.append_nil _

/-- An operation names the function that it named before. -/
theorem expandOperation_quiet {op' : Operation}
    (h : scope.expandOperation op draft = .ok (op', draft')) :
    op'.directCallee? = op.directCallee? ∧ draft.Quiet draft' := by
  rcases exists_of_expandOperation h with
    ⟨dest, ty, incoming, incoming', rfl, rfl, hincoming⟩ | ⟨os, _, rfl, hos⟩
  · exact ⟨rfl, rel_of_mapM_run hincoming .refl .trans
      fun _ _ _ _ hentry => expandIncoming_quiet hentry⟩
  · obtain ⟨hfunctions, hquiet⟩ := expandOperands_quiet hos
    exact ⟨Operation.directCallee?_withOperands hfunctions, hquiet⟩

/-- The instructions keep their calls, and the code between them has none. -/
theorem expandInstructions_callees {old : List Instruction}
    (h : (old.forM scope.expandInstruction) draft = .ok ((), draft')) :
    calleesOf draft'.code = calleesOf draft.code ++ calleesOf old ∧
      draft'.edgeCallees = draft.edgeCallees := by
  induction old generalizing draft with
  | nil =>
      obtain ⟨_, rfl⟩ := Prod.mk.inj (Except.ok.inj h)
      exact ⟨(List.append_nil _).symm, rfl⟩
  | cons i old ih =>
      obtain ⟨⟨_, next⟩, hfirst, h⟩ := bind_eq_ok.mp h
      obtain ⟨hcode, hedges⟩ := ih h
      obtain ⟨op, middle, hop, rfl⟩ := exists_of_expandInstruction hfirst
      obtain ⟨hcallee, hquiet⟩ := expandOperation_quiet hop
      refine ⟨?_, hedges.trans hquiet.edges⟩
      rw [hcode, calleesOf_append, calleesOf_singleton, hcallee, hquiet.code, List.append_assoc,
        ← calleesOf_singleton, ← calleesOf_append]
      rfl

theorem expandBlock_callees {block block' : Block}
    (h : scope.expandBlock block draft = .ok (block', draft')) :
    calleesOf block'.instructions = calleesOf block.instructions ∧
      draft'.edgeCallees = draft.edgeCallees := by
  obtain ⟨middle, os, hbody, hos, rfl⟩ := exists_of_expandBlock h
  obtain ⟨hcode, hpassed⟩ := expandInstructions_callees hbody
  have hquiet := (expandOperands_quiet hos).2
  exact ⟨hquiet.code.trans hcode, hquiet.edges.trans hpassed⟩

theorem expandBlocks_callees {blocks blocks' : List Block}
    (h : (blocks.mapM scope.expandBlock) draft = .ok (blocks', draft')) :
    (blocks'.flatMap fun block => calleesOf block.instructions) =
        blocks.flatMap (fun block => calleesOf block.instructions) ∧
      draft'.edgeCallees = draft.edgeCallees := by
  constructor
  · rw [List.flatMap_def, List.flatMap_def]
    refine congrArg List.flatten ?_
    exact map_eq_of_mapM_run h fun _ _ _ _ hblock => (expandBlock_callees hblock).1
  · refine rel_of_mapM_run (R := fun s s' => s'.edgeCallees = s.edgeCallees) h (fun _ => rfl)
      (fun hnext hlast => hlast.trans hnext) ?_
    exact fun _ _ _ _ hblock => (expandBlock_callees hblock).2

/-- Expanding the operands of a body keeps its direct calls. -/
theorem directCallees_expandFunction {f g : Function} (h : scope.expandFunction f = .ok g) :
    g.directCallees = f.directCallees := by
  obtain ⟨blocks, draft, hblocks, h⟩ := exists_of_expandFunction h
  obtain ⟨hcallees, hedges⟩ := expandBlocks_callees hblocks
  have hexpanded : { f with blocks, values := draft.values : Function }.directCallees =
      f.directCallees := by
    rw [Function.directCallees_eq_flatMap, Function.directCallees_eq_flatMap]
    exact hcallees
  have hquiet : ∀ edge ∈ draft.edges, calleesOf edge.2 = [] := List.flatMap_eq_nil_iff.mp hedges
  refine foldlM_induction (fun edited => edited.directCallees = f.directCallees) ?_ hexpanded
    h
  intro edge hedge edited next hedited hnext
  obtain ⟨_, _, hnext⟩ := bind_eq_ok.mp hnext
  obtain rfl := Except.ok.inj hnext
  rw [Function.directCallees_mapBlock, hedited]
  intro block
  change calleesOf (block.instructions ++ edge.2) = _
  rw [calleesOf_append, hquiet edge hedge, List.append_nil]

/-! ## Preparing the entry -/

theorem directCallees_prepared (scope : Localized) (f : Function) :
    (scope.prepared f).directCallees = f.directCallees := by
  have hfront : calleesOf (scope.allocas f.values.length ++ scope.stores f.values.length) = [] := by
    apply calleesOf_of_not_call
    exact fun i hi => (plain_of_mem_front hi).2
  refine f.directCallees_mapBlock f.entry fun block => ?_
  change calleesOf (_ ++ block.instructions) = _
  rw [calleesOf_append, hfront, List.nil_append]

/-- Storage for globals takes no calls. -/
theorem mem_directCallees_localizeInto {f g : Function} (h : scope.localizeInto f = .ok g) :
    id ∈ g.directCallees ↔ id ∈ f.directCallees := by
  obtain ⟨expanded, hexpanded, rfl⟩ := expandFunction_of_localizeInto h
  rw [Function.mem_directCallees_mapOperands, directCallees_expandFunction hexpanded,
    directCallees_prepared]
  intro o
  have hfunction : (useSlot (scope.slots f.values.length) o).function? = o.function? :=
    view_useSlot (fun _ _ => rfl) o
  rw [hfunction]

end Localized

/-! ## All passes after inlining -/

namespace Module

/-- From inlining on, the direct calls of a function that is not erased stay. -/
theorem mem_directCallees_of_passes {plan : Plan} {inlined localized : Module}
    {owners : List (GlobalId × FunctionId)} {names : List String} {caller : FunctionId}
    {f g : Function} (hid : id ∉ plan.forced)
    (hlocalized : (plan.eraseForced inlined).prune.localize owners = .ok (localized, names))
    (hf : inlined.function? caller = some f) (hg : localized.sweep.function? caller = some g) :
    id ∈ g.directCallees ↔ id ∈ f.directCallees := by
  let Same (f g : Function) : Prop := id ∈ g.directCallees ↔ id ∈ f.directCallees
  have hrefl : ∀ f, Same f f := fun _ => .rfl
  have htrans : ∀ ⦃f g k⦄, Same f g → Same g k → Same f k := fun _ _ _ h h' => h'.trans h
  have herased : inlined.Derives Same (plan.eraseForced inlined) := by
    refine derives_eraseForced hrefl htrans (fun other hother f => ?_) inlined
    refine Function.mem_directCallees_mapOperands (Operand.function?_replaceFunction ?_ rfl)
    rintro rfl
    exact hid hother
  have hmoved : (plan.eraseForced inlined).prune.Derives Same localized :=
    derives_localize hrefl htrans
      (fun _ _ _ hlocalized => Localized.mem_directCallees_localizeInto hlocalized) hlocalized
  have hswept : localized.Derives Same localized.sweep :=
    derives_mapLive (fun _ => Function.mem_directCallees_sweep) rfl
  have hall := ((herased.trans htrans (derives_prune hrefl htrans _)).trans htrans hmoved).trans
    htrans hswept
  obtain ⟨f', hf', hsame⟩ := hall caller g hg
  obtain rfl := Option.some.inj (hf.symm.trans hf')
  exact hsame

end Module

end Monolith

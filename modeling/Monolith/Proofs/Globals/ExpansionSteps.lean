import Monolith.Proofs.Globals.ComputedOperands
import Monolith.Proofs.Module.Census

/-! # The steps of an expansion

What each step does to an operand, an operation or a block while globals are moved, and what it
has written then.
-/

namespace Monolith.Localized

variable {scope : Localized} {draft draft' : Draft}

/-- A constant stays an operand as it is, or it is computed from what its part has become.
Constant expressions stay only if they do not mention a tracked global. -/
theorem materialize_induction {P : Constant → Operand → Draft → Prop} (draft : Draft)
    (hkept : ∀ c, (c.isExpr = true → c.globals.any scope.tracks = false) → P c (.const c) draft)
    (helementPtr : ∀ source base indices o next, P base o next →
      P (.elementPtr source base indices) (.var next.values.length)
        { next with
          values := next.values ++ [{ ty := .ptr }]
          code := next.code ++
            [{ op := .elementPtr next.values.length source o (indices.map Operand.i32) true }] })
    (hcast : ∀ op value ty o next, P value o next →
      P (.cast op value ty) (.var next.values.length)
        { next with
          values := next.values ++ [{ ty }]
          code := next.code ++ [{ op := .cast op next.values.length o ty }] }) :
    (c : Constant) → P c (scope.materialize c draft).1 (scope.materialize c draft).2
  | .elementPtr source base indices => by
      rw [materialize]
      split
      next =>
        exact helementPtr source base indices _ _
          (materialize_induction draft hkept helementPtr hcast base)
      next hnone => exact hkept _ fun _ => Bool.eq_false_iff.mpr hnone
  | .cast op value ty => by
      rw [materialize]
      split
      next =>
        exact hcast op value ty _ _ (materialize_induction draft hkept helementPtr hcast value)
      next hnone => exact hkept _ fun _ => Bool.eq_false_iff.mpr hnone
  | .int .. | .null | .undef _ | .poison _ | .bytes _ | .aggregate .. | .global _ | .function _ =>
      hkept _ fun hexpr => by cases hexpr

/-- A constant is left as it is if it does not mention a tracked global, or else it is computed. -/
theorem expandOperand_const {c : Constant} {o' : Operand}
    (h : scope.expandOperand (.const c) draft = .ok (o', draft')) :
    (c.globals.any scope.tracks = false ∧ o' = .const c ∧ draft' = draft) ∨
      (c.isAggregate = false ∧ scope.materialize c draft = (o', draft')) := by
  simp only [expandOperand] at h
  cases hfind : c.globals.find? scope.tracks with
  | none =>
      rw [hfind] at h
      obtain ⟨rfl, rfl⟩ := Prod.mk.inj (Except.ok.inj h)
      exact .inl ⟨List.any_eq_false.mpr (List.find?_eq_none.mp hfind), rfl, rfl⟩
  | some id =>
      rw [hfind] at h
      dsimp only at h
      split at h
      next => cases h
      next hplain => exact .inr ⟨Bool.eq_false_iff.mpr hplain, Except.ok.inj h⟩

/-- An operand is left as it is, or it is a constant that is computed. -/
theorem expandOperand_cases {o o' : Operand} (h : scope.expandOperand o draft = .ok (o', draft')) :
    (o' = o ∧ draft' = draft) ∨ ∃ c, o = .const c ∧ scope.materialize c draft = (o', draft') := by
  cases o with
  | var x =>
      obtain ⟨rfl, rfl⟩ := Prod.mk.inj (Except.ok.inj h)
      exact .inl ⟨rfl, rfl⟩
  | const c => exact (expandOperand_const h).imp And.right fun hrun => ⟨c, rfl, hrun.2⟩

/-- The code for an operand of a phi goes to the block that it is listed for. -/
theorem exists_of_expandIncoming {entry entry' : Operand × BlockId}
    (h : scope.expandIncoming entry draft = .ok (entry', draft')) :
    ∃ computed, scope.expandOperand entry.1 { draft with code := [] } = .ok (entry'.1, computed) ∧
      entry'.2 = entry.2 ∧ draft'.values = computed.values ∧ draft'.code = draft.code ∧
      draft'.edges = if computed.code.isEmpty then computed.edges else
        computed.edges ++ [(entry.2, computed.code)] := by
  unfold expandIncoming at h
  obtain ⟨⟨value, computed⟩, hvalue, h⟩ := bind_eq_ok.mp h
  obtain ⟨rfl, rfl⟩ := Prod.mk.inj (Except.ok.inj h)
  exact ⟨computed, hvalue, rfl, rfl, rfl, rfl⟩

/-- A phi has its entries expanded, any other operation its operands. -/
theorem exists_of_expandOperation {op op' : Operation}
    (h : scope.expandOperation op draft = .ok (op', draft')) :
    (∃ dest ty incoming incoming', op = .phi dest ty incoming ∧ op' = .phi dest ty incoming' ∧
      (incoming.mapM scope.expandIncoming) draft = .ok (incoming', draft')) ∨
    ∃ os, op.isPhi = false ∧ op' = op.withOperands os ∧
      (op.operands.mapM scope.expandOperand) draft = .ok (os, draft') := by
  cases hphi : op.isPhi with
  | false =>
      right
      rw [expandOperation_eq hphi] at h
      obtain ⟨⟨os, last⟩, hos, h⟩ := bind_eq_ok.mp h
      obtain ⟨rfl, rfl⟩ := Prod.mk.inj (Except.ok.inj h)
      exact ⟨os, rfl, rfl, hos⟩
  | true =>
      left
      cases op with
      | phi dest ty incoming =>
          obtain ⟨⟨incoming', last⟩, hincoming, h⟩ := bind_eq_ok.mp h
          obtain ⟨rfl, rfl⟩ := Prod.mk.inj (Except.ok.inj h)
          exact ⟨dest, ty, incoming, incoming', rfl, rfl, hincoming⟩
      | _ => cases hphi

theorem exists_of_expandInstruction {i : Instruction}
    (h : scope.expandInstruction i draft = .ok ((), draft')) :
    ∃ op middle, scope.expandOperation i.op draft = .ok (op, middle) ∧
      draft' = { middle with code := middle.code ++ [{ i with op }] } := by
  obtain ⟨⟨op, middle⟩, hop, h⟩ := bind_eq_ok.mp h
  obtain ⟨_, rfl⟩ := Prod.mk.inj (Except.ok.inj h)
  exact ⟨op, middle, hop, rfl⟩

/-- What every instruction keeps of the draft is kept by all of them. -/
theorem expandInstructions_induction {P : Draft → Prop} {old : List Instruction}
    (h : (old.forM scope.expandInstruction) draft = .ok ((), draft')) (hdraft : P draft)
    (hstep : ∀ i ∈ old, ∀ draft op middle, P draft →
      scope.expandOperation i.op draft = .ok (op, middle) →
        P { middle with code := middle.code ++ [{ i with op }] }) : P draft' := by
  induction old generalizing draft with
  | nil =>
      obtain ⟨_, rfl⟩ := Prod.mk.inj (Except.ok.inj h)
      exact hdraft
  | cons i old ih =>
      obtain ⟨⟨_, next⟩, hfirst, h⟩ := bind_eq_ok.mp h
      obtain ⟨op, middle, hop, rfl⟩ := exists_of_expandInstruction hfirst
      obtain ⟨hi, hold⟩ := List.forall_mem_cons.mp hstep
      exact ih h (hi draft op middle hdraft hop) hold

/-- A block is expanded into a draft without code, and the code is what it becomes. -/
theorem exists_of_expandBlock {block block' : Block}
    (h : scope.expandBlock block draft = .ok (block', draft')) :
    ∃ middle os,
      (block.instructions.forM scope.expandInstruction) { draft with code := [] } =
        .ok ((), middle) ∧
      (block.terminator.operands.mapM scope.expandOperand) middle = .ok (os, draft') ∧
      block' = { block with
        instructions := draft'.code, terminator := block.terminator.withOperands os } := by
  unfold expandBlock at h
  obtain ⟨⟨_, middle⟩, hbody, h⟩ := bind_eq_ok.mp h
  obtain ⟨⟨terminator, _⟩, hend, h⟩ := bind_eq_ok.mp h
  obtain ⟨rfl, rfl⟩ := Prod.mk.inj (Except.ok.inj h)
  rw [Terminator.mapOperandsM_eq] at hend
  obtain ⟨⟨os, _⟩, hos, hend⟩ := bind_eq_ok.mp (Expansion.within_eq_ok.mp hend)
  obtain ⟨rfl, rfl⟩ := Prod.mk.inj (Except.ok.inj hend)
  exact ⟨middle, os, Expansion.within_eq_ok.mp hbody, hos, rfl⟩

end Monolith.Localized

import Monolith.Proofs.Globals.ComputedOperands
import Monolith.Proofs.Module.Census

/-! # Operands that are refused

An aggregate that mentions a global with a slot cannot be computed. Code is expanded operand by
operand, so an expansion fails just for the first operand that is such an aggregate.
-/

namespace Monolith.Localized

variable {scope : Localized}

def refusal? (scope : Localized) : Operand → Option Failure
  | .var _ => none
  | .const c =>
      if c.isAggregate then
        (c.globals.find? scope.tracks).map fun id =>
          .rejected (.unsupportedConstantUse (scope.globalName id) scope.function)
      else none

/-- Just aggregates are refused, and for a tracked global that they mention. -/
theorem exists_of_refusal {o : Operand} {e : Failure} (h : scope.refusal? o = some e) :
    ∃ c id, o = .const c ∧ c.isAggregate = true ∧ id ∈ c.globals ∧ scope.tracks id = true ∧
      e = .rejected (.unsupportedConstantUse (scope.globalName id) scope.function) := by
  cases o with
  | var x => cases h
  | const c =>
      rw [refusal?] at h
      split at h
      next haggregate =>
        obtain ⟨id, hfind, rfl⟩ := Option.map_eq_some_iff.mp h
        exact ⟨c, id, rfl, haggregate, List.mem_of_find?_eq_some hfind,
          List.find?_some hfind, rfl⟩
      next => cases h

/-- An aggregate that mentions a global with a slot is refused, and nothing else. -/
theorem isSome_refusal?_const {c : Constant} : (scope.refusal? (.const c)).isSome = true ↔
    c.isAggregate = true ∧ ∃ id ∈ c.globals, scope.tracks id = true := by
  rw [refusal?]
  split
  next haggregate => simp [haggregate]
  next haggregate => simp [haggregate]

/-- The expansion fails for the first of the operands that is refused, and only then. -/
def FailsAt {σ α : Type} (scope : Localized) (x : Expansion σ α) (os : List Operand) : Prop :=
  ∀ draft e, (x draft).mapError Aborted.failure = .error e ↔
    os.findSome? scope.refusal? = some e

namespace FailsAt

variable {σ τ α β : Type}

theorem pure (scope : Localized) (a : α) :
    scope.FailsAt (Pure.pure a : Expansion σ α) [] := by
  intro draft e
  constructor <;> intro h <;> cases h

theorem modify (change : Draft → Draft) : scope.FailsAt (modify change : Expansion σ Unit) [] := by
  intro draft e
  constructor <;> intro h <;> cases h

theorem get : scope.FailsAt (get : Expansion σ Draft) [] := by
  intro draft e
  constructor <;> intro h <;> cases h

/-- What comes second fails only if what comes first does not. -/
theorem bind {x : Expansion σ α} {k : α → Expansion σ β} {os more : List Operand}
    (hx : scope.FailsAt x os) (hk : ∀ a, scope.FailsAt (k a) more) :
    scope.FailsAt (x >>= k) (os ++ more) := by
  intro draft e
  rw [List.findSome?_append, Option.or_eq_some_iff, ← hx draft e]
  have hbind : ((x >>= k) draft).mapError Aborted.failure =
      (x draft).mapError Aborted.failure >>= fun result =>
        (k result.1 result.2).mapError Aborted.failure := mapError_bind _ _ _
  rw [hbind, bind_eq_error]
  -- the second part is reached just if the first refuses none of its operands
  refine or_congr_right ?_
  constructor
  · rintro ⟨result, hresult, he⟩
    refine ⟨Option.eq_none_iff_forall_ne_some.mpr fun other hother => ?_, (hk _ _ _).mp he⟩
    rw [(hx draft other).mpr hother] at hresult
    cases hresult
  · rintro ⟨hnone, he⟩
    cases hresult : (x draft).mapError Aborted.failure with
    | error other =>
        rw [(hx draft other).mp hresult] at hnone
        cases hnone
    | ok result => exact ⟨result, rfl, (hk _ _ _).mpr he⟩

theorem bind_nil {x : Expansion σ α} {k : α → Expansion σ β} {os : List Operand}
    (hx : scope.FailsAt x os) (hk : ∀ a, scope.FailsAt (k a) []) : scope.FailsAt (x >>= k) os :=
  List.append_nil os ▸ hx.bind hk

theorem nil_bind {x : Expansion σ α} {k : α → Expansion σ β} {os : List Operand}
    (hx : scope.FailsAt x []) (hk : ∀ a, scope.FailsAt (k a) os) : scope.FailsAt (x >>= k) os :=
  hx.bind hk

/-- What a failure leaves is no part of it. -/
theorem within {x : Expansion σ α} {os : List Operand} (hx : scope.FailsAt x os)
    (whole : σ → τ) : scope.FailsAt (x.within whole) os := by
  intro draft e
  rw [Expansion.within, failure_map]
  exact hx draft e

/-- Entries fail in their order. -/
theorem mapM {f : α → Expansion σ β} {os : α → List Operand} (hf : ∀ a, scope.FailsAt (f a) (os a))
    (entries : List α) : scope.FailsAt (entries.mapM f) (entries.flatMap os) := by
  induction entries with
  | nil => exact .pure scope []
  | cons a entries ih =>
      rw [List.mapM_cons, List.flatMap_cons]
      exact (hf a).bind fun b => ih.bind_nil fun rest => .pure scope (b :: rest)

theorem forM {f : α → Expansion σ PUnit} {os : α → List Operand}
    (hf : ∀ a, scope.FailsAt (f a) (os a)) (entries : List α) :
    scope.FailsAt (entries.forM f) (entries.flatMap os) := by
  induction entries with
  | nil => exact .pure scope _
  | cons a entries ih =>
      rw [List.flatMap_cons]
      exact (hf a).bind fun _ => ih

end FailsAt

/-- Expanding an operand fails if it is refused. -/
theorem expandOperand_failsAt (scope : Localized) (o : Operand) :
    scope.FailsAt (scope.expandOperand o) [o] := by
  intro draft e
  rw [List.findSome?_singleton]
  cases o with
  | var x => exact FailsAt.pure scope (Operand.var x) draft e
  | const c =>
      simp only [expandOperand, refusal?]
      cases c.globals.find? scope.tracks with
      | none =>
          simp only [Option.map_none, ite_self]
          exact FailsAt.pure scope (Operand.const c) draft e
      | some id =>
          cases c.isAggregate with
          | false => constructor <;> intro h <;> cases h
          | true =>
              constructor
              · exact fun h => congrArg some (Except.error.inj h)
              · exact fun h => congrArg Except.error (Option.some.inj h)

theorem expandIncoming_failsAt (scope : Localized) (entry : Operand × BlockId) :
    scope.FailsAt (scope.expandIncoming entry) [entry.1] := by
  refine .nil_bind .get fun outer => .nil_bind (.modify _) fun _ => ?_
  refine (scope.expandOperand_failsAt entry.1).bind_nil fun value => ?_
  exact .nil_bind (.modify _) fun _ => .pure scope _

/-- An operation fails for the first of its operands that is refused. -/
theorem expandOperation_failsAt (scope : Localized) (op : Operation) :
    scope.FailsAt (scope.expandOperation op) op.operands := by
  cases hphi : op.isPhi with
  | true =>
      cases op with
      | phi dest ty incoming =>
          have hincoming := FailsAt.mapM scope.expandIncoming_failsAt incoming
          rw [← List.map_eq_flatMap] at hincoming
          exact hincoming.bind_nil fun _ => .pure scope _
      | _ => cases hphi
  | false =>
      have hos := FailsAt.mapM scope.expandOperand_failsAt op.operands
      rw [List.flatMap_singleton'] at hos
      rw [expandOperation_eq hphi]
      exact hos.bind_nil fun _ => .pure scope _

/-- A block fails for the first operand of its instructions and its terminator. -/
theorem expandBlock_failsAt (scope : Localized) (block : Block) :
    scope.FailsAt (scope.expandBlock block) block.operands := by
  have hinstruction : ∀ i, scope.FailsAt (scope.expandInstruction i) i.op.operands :=
    fun i => (scope.expandOperation_failsAt i.op).bind_nil fun _ => .modify _
  have hos := FailsAt.mapM scope.expandOperand_failsAt block.terminator.operands
  rw [List.flatMap_singleton'] at hos
  unfold expandBlock
  rw [Terminator.mapOperandsM_eq]
  refine .nil_bind (.modify _) fun _ => ?_
  refine ((FailsAt.forM hinstruction block.instructions).within _).bind fun _ => ?_
  refine ((hos.bind_nil fun _ => .pure scope _).within _).bind_nil fun _ => ?_
  exact .nil_bind .get fun _ => .pure scope _

/-- So do the blocks, one after the other. -/
theorem expandBlocks_failsAt (scope : Localized) (blocks : List Block) :
    scope.FailsAt (scope.expandBlocks blocks) (blocks.flatMap Block.operands) := by
  induction blocks with
  | nil => exact .pure scope []
  | cons block rest ih =>
      rw [List.flatMap_cons]
      refine ((scope.expandBlock_failsAt block).within _).bind fun first => ?_
      exact (ih.within _).bind_nil fun others => .pure scope (first :: others)

end Monolith.Localized

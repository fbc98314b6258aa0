import Monolith.Globals.Localize
import Monolith.Proofs.Lists
import Monolith.Proofs.Verify.WellFormedModule

/-! # Computed operands

When globals get slots, a constant that mentions them is no operand any more. A bare
reference becomes a read of the slot, and a constant expression is computed step by step
into new variables, each recorded when it is needed. The relations here say what code
computes an operand, without saying how it is produced.
-/

namespace Monolith

variable {c e : Constant} {o : Operand} {i : Instruction} {op : Operation} {code : List Instruction}
  {values values' : List ValueInfo}

/-! ## Changing the operands of an operation -/

/-- The operation with the given operands in place of its own. -/
def Operation.withOperands : Operation → List Operand → Operation
  | .load dest ty _ align, [address] => .load dest ty address align
  | .store _ _ align, [value, address] => .store value address align
  | .elementPtr dest source _ _ inbounds, base :: indices =>
      .elementPtr dest source base indices inbounds
  | .binary op dest ty _ _, [lhs, rhs] => .binary op dest ty lhs rhs
  | .compare predicate dest _ _, [lhs, rhs] => .compare predicate dest lhs rhs
  | .cast op dest _ ty, [value] => .cast op dest value ty
  | .call dest returnType _ _, callee :: args => .call dest returnType callee args
  | .phi dest ty incoming, values => .phi dest ty (values.zip (incoming.map Prod.snd))
  | op, _ => op

def Terminator.withOperands : Terminator → List Operand → Terminator
  | .branch _ onTrue onFalse, [condition] => .branch condition onTrue onFalse
  | .ret (some _), [value] => .ret (some value)
  | terminator, _ => terminator

namespace Operation

theorem mapOperandsM_eq {m : Type → Type} [Monad m] [LawfulMonad m] (f : Operand → m Operand)
    (hphi : op.isPhi = false) : op.mapOperandsM f = op.withOperands <$> op.operands.mapM f := by
  cases op with
  | phi => cases hphi
  | _ => simp [mapOperandsM, operands, withOperands, List.mapM_cons]

variable {values : List Operand}

/-- An operation with as many operands has just these. -/
theorem operands_withOperands (h : values.length = op.operands.length) :
    (op.withOperands values).operands = values := by
  cases op with
  | phi dest ty incoming =>
      simp only [operands, List.length_map] at h
      simp [withOperands, operands, List.map_fst_zip, h]
  | elementPtr | call =>
      obtain ⟨first, rest, rfl⟩ := List.exists_cons_of_length_eq_add_one h
      rfl
  | store | binary | compare =>
      obtain ⟨first, second, rfl⟩ := List.length_eq_two.mp h
      rfl
  | load | cast =>
      obtain ⟨only, rfl⟩ := List.length_eq_one_iff.mp h
      rfl
  | alloca =>
      obtain rfl := List.length_eq_zero_iff.mp h
      rfl

@[simp] theorem dest?_withOperands (op : Operation) (values : List Operand) :
    (op.withOperands values).dest? = op.dest? := by
  unfold withOperands
  split <;> rfl

@[simp] theorem isPhi_withOperands (op : Operation) (values : List Operand) :
    (op.withOperands values).isPhi = op.isPhi := by
  unfold withOperands
  split <;> rfl

/-- Changing operands that were put in is putting in changed ones. -/
theorem mapOperands_withOperands (g : Operand → Operand)
    (h : values.length = op.operands.length) :
    (op.withOperands values).mapOperands g = op.withOperands (values.map g) := by
  cases op with
  | phi dest ty incoming =>
      simp [withOperands, mapOperands, List.zip_map_left, Prod.map]
  | elementPtr | call =>
      obtain ⟨first, rest, rfl⟩ := List.exists_cons_of_length_eq_add_one h
      rfl
  | store | binary | compare =>
      obtain ⟨first, second, rfl⟩ := List.length_eq_two.mp h
      rfl
  | load | cast =>
      obtain ⟨only, rfl⟩ := List.length_eq_one_iff.mp h
      rfl
  | alloca => rfl

end Operation

namespace Terminator

theorem mapOperandsM_eq {m : Type → Type} [Monad m] [LawfulMonad m] (f : Operand → m Operand)
    (terminator : Terminator) :
    terminator.mapOperandsM f = terminator.withOperands <$> terminator.operands.mapM f := by
  cases terminator with
  | ret value => cases value <;> simp [mapOperandsM, operands, withOperands, List.mapM_cons]
  | _ => simp [mapOperandsM, operands, withOperands, List.mapM_cons]

variable {terminator : Terminator} {values : List Operand}

theorem operands_withOperands (h : values.length = terminator.operands.length) :
    (terminator.withOperands values).operands = values := by
  cases terminator with
  | branch =>
      obtain ⟨condition, rfl⟩ := List.length_eq_one_iff.mp h
      rfl
  | ret value =>
      cases value with
      | none =>
          obtain rfl := List.length_eq_zero_iff.mp h
          rfl
      | some _ =>
          obtain ⟨value, rfl⟩ := List.length_eq_one_iff.mp h
          rfl
  | jump | unreachable =>
      obtain rfl := List.length_eq_zero_iff.mp h
      rfl

@[simp] theorem targets_withOperands (terminator : Terminator) (values : List Operand) :
    (terminator.withOperands values).targets = terminator.targets := by
  unfold withOperands
  split <;> rfl

theorem mapOperands_withOperands (g : Operand → Operand)
    (h : values.length = terminator.operands.length) :
    (terminator.withOperands values).mapOperands g = terminator.withOperands (values.map g) := by
  cases terminator with
  | branch =>
      obtain ⟨condition, rfl⟩ := List.length_eq_one_iff.mp h
      rfl
  | ret value =>
      cases value with
      | none => rfl
      | some _ =>
          obtain ⟨value, rfl⟩ := List.length_eq_one_iff.mp h
          rfl
  | jump | unreachable => rfl

end Terminator

/-- Any operation but a phi has its operands expanded one after the other. -/
theorem Localized.expandOperation_eq {scope : Localized} (hphi : op.isPhi = false) :
    scope.expandOperation op = op.withOperands <$> op.operands.mapM scope.expandOperand := by
  rw [← Operation.mapOperandsM_eq _ hphi]
  cases op with
  | phi => cases hphi
  | _ => rfl

/-! ## Code that computes operands -/

abbrev Slots := List (GlobalId × ValueId)

def Operand.typeIn (values : List ValueInfo) : Operand → Option Ty
  | .var x => values[x]?.map ValueInfo.ty
  | .const c => some c.ty

theorem Function.operandType?_eq (f : Function) (o : Operand) :
    f.operandType? o = o.typeIn f.values := by
  cases o <;> rfl

/-- Constant expressions are made of what can be computed: they have no aggregates in them,
and addresses are computed from pointers. -/
structure Constant.Computable (c : Constant) : Prop where
  no_aggregate : ∀ e p : Constant, e.Part c → e.isExpr = true → p.Part e → p.isAggregate = false
  pointers : ∀ source base indices, (Constant.elementPtr source base indices).Part c →
    base.ty = .ptr

def Constant.base? : Constant → Option Constant
  | .elementPtr _ base _ => some base
  | _ => none

/-- Whether a constant can be computed is checked node by node. -/
theorem Constant.computable_iff : c.Computable ↔
    ∀ e ∈ c.nodes, (e.isExpr = true → ∀ p ∈ e.nodes, p.isAggregate = false) ∧
      ∀ base ∈ e.base?, base.ty = .ptr := by
  constructor
  · intro h e he
    rw [mem_nodes_iff] at he
    refine ⟨fun hexpr p hp => h.no_aggregate e p he hexpr (mem_nodes_iff.mp hp),
      fun base hbase => ?_⟩
    cases e with
    | elementPtr source other indices =>
        obtain rfl := Option.some.inj hbase
        exact h.pointers source other indices he
    | _ => cases hbase
  · intro h
    refine ⟨fun e p he hexpr hp => ?_, fun source base indices he => ?_⟩
    · exact (h e (mem_nodes_iff.mpr he)).1 hexpr p (mem_nodes_iff.mpr hp)
    · exact (h _ (mem_nodes_iff.mpr he)).2 base rfl

instance (c : Constant) : Decidable c.Computable :=
  decidable_of_iff _ Constant.computable_iff.symm

/-- Where the first variables are recorded, the code computes what the operand has stood for,
and more variables are recorded. -/
inductive Computed (slots : Slots) :
    List ValueInfo → Operand → List Instruction → Operand → List ValueInfo → Prop where
  | var {values : List ValueInfo} {x : ValueId} : Computed slots values (.var x) [] (.var x) values
  | const {values : List ValueInfo} {c : Constant}
      (hnone : ∀ id ∈ c.globals, slots.lookup id = none) :
      Computed slots values (.const c) [] (.const c) values
  | slot {values : List ValueInfo} {id : GlobalId} {slot : ValueId}
      (hslot : slots.lookup id = some slot) :
      Computed slots values (.const (.global id)) [] (.var slot) values
  | elementPtr {values values' : List ValueInfo} {source : Ty} {base : Constant}
      {indices : List Int64} {code : List Instruction} {o : Operand}
      (hbase : Computed slots values (.const base) code o values') :
      Computed slots values (.const (.elementPtr source base indices))
        (code ++ [{ op := .elementPtr values'.length source o (indices.map Operand.i32) true }])
        (.var values'.length) (values' ++ [{ ty := .ptr }])
  | cast {values values' : List ValueInfo} {op : CastOp} {value : Constant} {ty : Ty}
      {code : List Instruction} {o : Operand}
      (hvalue : Computed slots values (.const value) code o values') :
      Computed slots values (.const (.cast op value ty))
        (code ++ [{ op := .cast op values'.length o ty }])
        (.var values'.length) (values' ++ [{ ty := ty }])

inductive ComputedAll (slots : Slots) : List ValueInfo → List Operand → List Instruction →
    List Operand → List ValueInfo → Prop where
  | nil {values : List ValueInfo} : ComputedAll slots values [] [] [] values
  | cons {values values' values'' : List ValueInfo} {o o' : Operand} {os os' : List Operand}
      {code more : List Instruction} (hfirst : Computed slots values o code o' values')
      (hrest : ComputedAll slots values' os more os' values'') :
      ComputedAll slots values (o :: os) (code ++ more) (o' :: os') values''

/-- One where the variable is among those from the first position to the last. -/
def between (first last x : Nat) : Nat := if first ≤ x ∧ x < last then 1 else 0

theorem between_self (a x : Nat) : between a a x = 0 := if_neg (by omega)

/-- A range is counted in two parts. -/
theorem between_add {a b c : Nat} (hab : a ≤ b) (hbc : b ≤ c) (x : Nat) :
    between a b x + between b c x = between a c x := by
  unfold between
  split <;> split <;> split <;> omega

/-- New variables that come behind all old ones, each once, repeat none of them. -/
theorem nodup_of_count_between {old new : List Nat} {a b : Nat} (hold : old.Nodup)
    (hlt : ∀ x ∈ old, x < a) (hcount : ∀ x, new.count x = old.count x + between a b x) :
    new.Nodup := by
  refine List.nodup_iff_count_le_one.mpr fun x => ?_
  rw [hcount]
  by_cases hx : x ∈ old
  · have hless := hlt x hx
    rw [between, if_neg fun h => Nat.not_le.mpr hless h.1]
    exact List.nodup_iff_count_le_one.mp hold x
  · rw [List.count_eq_zero_of_not_mem hx, between]
    split <;> omega

theorem count_singleton_eq (a x : Nat) : [a].count x = between a (a + 1) x := by
  rw [List.count_singleton, between]
  by_cases h : a = x
  · rw [if_pos (beq_iff_eq.mpr h), if_pos (by omega)]
  · rw [if_neg (by simpa using h), if_neg (by omega)]

def Slots.Has (slots : Slots) (x : ValueId) : Prop := ∃ id, slots.lookup id = some x

/-- The constant is one of the module, and mentions no global that has a slot. -/
def Module.Keeps (m : Module) (slots : Slots) (c : Constant) : Prop :=
  m.Holds c ∧ ∀ id ∈ c.globals, slots.lookup id = none

/-- The instruction computes something from variables that are there, from what the
instructions before it define and from constants that may stand there. -/
structure Computes (There : ValueId → Prop) (Kept : Constant → Prop) (values : List ValueInfo)
    (before : List Instruction) (i : Instruction) : Prop where
  not_phi : i.op.isPhi = false
  not_call : i.op.callee? = none
  reads : ∀ x, .var x ∈ i.op.operands → There x ∨ x ∈ defsOf before
  holds : ∀ c, .const c ∈ i.op.operands → Kept c
  pointers : ∀ address, i.op.address? = some address → address.typeIn values = some .ptr

/-- All of the code computes something, and it defines the variables that are recorded for it. -/
structure Emitted (There : ValueId → Prop) (Kept : Constant → Prop)
    (values values' : List ValueInfo) (code : List Instruction) : Prop where
  grows : values <+: values'
  counts : ∀ x, (defsOf code).count x = between values.length values'.length x
  computes : ∀ before i after, code = before ++ i :: after →
    Computes There Kept values' before i

/-- The second operand stands for the first, where the code has been passed. -/
structure Replaces (slots : Slots) (values values' : List ValueInfo) (code : List Instruction)
    (o o' : Operand) : Prop where
  read : ∀ x, o' = .var x → o = .var x ∨ (∃ id, slots.lookup id = some x) ∨ x ∈ defsOf code
  kept : ∀ c, o' = .const c → o = .const c ∧ ∀ id ∈ c.globals, slots.lookup id = none
  typed : ∀ ty, o.typeIn values = some ty → o'.typeIn values' = some ty

/-- Types stay as they are when variables are recorded. -/
theorem Operand.typeIn_of_prefix (h : values <+: values') {ty : Ty} (ho : o.typeIn values = some ty)
    : o.typeIn values' = some ty := by
  cases o with
  | const c => exact ho
  | var x =>
      obtain ⟨info, hinfo, hty⟩ := Option.map_eq_some_iff.mp ho
      refine Option.map_eq_some_iff.mpr ⟨info, ?_, hty⟩
      obtain ⟨more, rfl⟩ := h
      rw [List.getElem?_append_left (List.getElem?_eq_some_iff.mp hinfo).1]
      exact hinfo

theorem Computes.mono {There : ValueId → Prop} {Kept : Constant → Prop}
    {before before' : List Instruction} (h : Computes There Kept values before i)
    (hvalues : values <+: values') (hbefore : defsOf before ⊆ defsOf before') :
    Computes There Kept values' before' i where
  not_phi := h.not_phi
  not_call := h.not_call
  reads x hx := (h.reads x hx).imp_right fun hx => hbefore hx
  holds := h.holds
  pointers address haddress := Operand.typeIn_of_prefix hvalues (h.pointers address haddress)

namespace Emitted

variable {There : ValueId → Prop} {Kept : Constant → Prop} {values'' : List ValueInfo}
  {more : List Instruction}

theorem nil : Emitted There Kept values values [] where
  grows := List.prefix_rfl
  counts x := (between_self _ x).symm
  computes before i after h := by cases before <;> cases h

/-- Code that reads what the code in front of it defines. -/
theorem after {There' : ValueId → Prop} (h : Emitted There Kept values values' code)
    (h' : Emitted There' Kept values' values'' more)
    (hthere : ∀ x, There' x → There x ∨ x ∈ defsOf code) :
    Emitted There Kept values values'' (code ++ more) where
  grows := h.grows.trans h'.grows
  counts x := by
    rw [defsOf_append, List.count_append, h.counts, h'.counts,
      between_add h.grows.length_le h'.grows.length_le]
  computes before i after hsplit := by
    rcases split_append hsplit with ⟨rest, hcode, _⟩ | ⟨rest, rfl, hmore⟩
    · exact (h.computes before i rest hcode).mono h'.grows (List.Subset.refl _)
    · have hi := h'.computes rest i after hmore
      refine ⟨hi.not_phi, hi.not_call, fun x hx => ?_, hi.holds, hi.pointers⟩
      rw [defsOf_append, List.mem_append]
      rcases hi.reads x hx with hx | hx
      · exact (hthere x hx).imp_right .inl
      · exact .inr (.inr hx)

/-- Code may follow other code that computes something. -/
theorem append (h : Emitted There Kept values values' code)
    (h' : Emitted There Kept values' values'' more) :
    Emitted There Kept values values'' (code ++ more) :=
  h.after h' fun _ => .inl

/-- An instruction at the end that defines nothing. -/
theorem silent (h : Emitted There Kept values values' code) (hdest : i.op.dest? = none)
    (hi : Computes There Kept values' code i) :
    Emitted There Kept values values' (code ++ [i]) := by
  refine ⟨h.grows, fun x => ?_, fun before j after hsplit => ?_⟩
  · have hsingle : defsOf [i] = [] := by simp [defsOf, hdest]
    rw [defsOf_append, hsingle, List.append_nil, h.counts]
  · rcases split_append hsplit with ⟨rest, hcode, _⟩ | ⟨rest, rfl, hsingle⟩
    · exact h.computes before j rest hcode
    · cases rest with
      | nil =>
          obtain ⟨rfl, _⟩ := List.cons.inj hsingle
          simpa using hi
      | cons _ rest => cases rest <;> cases hsingle

/-- Code may be followed by one more instruction. -/
theorem snoc (h : Emitted There Kept values values' code) {info : ValueInfo}
    (hdest : i.op.dest? = some values'.length) (hi : Computes There Kept values' code i) :
    Emitted There Kept values (values' ++ [info]) (code ++ [i]) where
  grows := h.grows.trans (List.prefix_append _ _)
  counts x := by
    have hsingle : defsOf [i] = [values'.length] := by simp [defsOf, hdest]
    rw [defsOf_append, List.count_append, h.counts, hsingle, count_singleton_eq,
      between_add h.grows.length_le (Nat.le_succ _), List.length_append, List.length_singleton]
  computes before j after hsplit := by
    have hgrows : values' <+: values' ++ [info] := List.prefix_append _ _
    rcases split_append hsplit with ⟨rest, hcode, _⟩ | ⟨rest, rfl, hsingle⟩
    · exact (h.computes before j rest hcode).mono hgrows (List.Subset.refl _)
    · cases rest with
      | nil =>
          obtain ⟨rfl, _⟩ := List.cons.inj hsingle
          exact hi.mono hgrows (by simp)
      | cons _ rest => cases rest <;> cases hsingle

end Emitted

theorem Constant.Part.trans {d : Constant} (h : c.Part d) (h' : d.Part e) : c.Part e := by
  induction h' with
  | whole => exact h
  | element hmem _ ih => exact .element hmem ih
  | base _ ih => exact .base ih
  | value _ ih => exact .value ih

theorem Module.Holds.part {m : Module} (h : m.Holds c) (hpart : e.Part c) : m.Holds e where
  globals id hid := h.globals id (hid.trans hpart)
  functions id hid := h.functions id (hid.trans hpart)

/-- The module holds what the constant refers to, and its addresses can be computed. -/
structure Module.Supplies (m : Module) (c : Constant) : Prop where
  holds : m.Holds c
  pointers : ∀ source base indices, (Constant.elementPtr source base indices).Part c →
    base.ty = .ptr

/-- A module that holds a constant holds its parts. -/
theorem Module.Supplies.part {m : Module} (h : m.Supplies c) (hpart : e.Part c) : m.Supplies e where
  holds := h.holds.part hpart
  pointers source base indices he := h.pointers source base indices (he.trans hpart)

theorem Module.holds_i32 (m : Module) (value : Int64) : m.Holds (.i32 value) where
  globals id hid := by cases hid
  functions id hid := by cases hid

/-- What stands for an operand still does after more code. -/
theorem Replaces.mono {slots : Slots} {first last : List ValueInfo} {code' : List Instruction}
    {o' : Operand} (h : Replaces slots values values' code o o') (hfirst : first <+: values)
    (hcode : code ⊆ code') (hlast : values' <+: last) : Replaces slots first last code' o o' where
  read x hx := by
    rcases h.read x hx with hsame | hslot | hx
    · exact .inl hsame
    · exact .inr (.inl hslot)
    · exact .inr (.inr (Function.defsOf_subset hcode hx))
  kept := h.kept
  typed ty hty :=
    Operand.typeIn_of_prefix hlast (h.typed ty (Operand.typeIn_of_prefix hfirst hty))

section

variable {m : Module} {slots : Slots}

/-- A new variable is computed from one operand and numbers. -/
theorem Emitted.of_step {base : Constant}
    (hcode : Emitted slots.Has (m.Keeps slots) values values' code)
    (hbase : Replaces slots values values' code (.const base) o) (hholds : m.Holds base)
    {info : ValueInfo} (hdest : op.dest? = some values'.length) (hphi : op.isPhi = false)
    (hcall : op.callee? = none) (hoperands : ∀ o' ∈ op.operands, o' = o ∨ ∃ value, o' = .i32 value)
    (hpointers : ∀ address, op.address? = some address → address = o ∧ base.ty = .ptr) :
    Emitted slots.Has (m.Keeps slots) values (values' ++ [info]) (code ++ [{ op := op }]) := by
  refine hcode.snoc hdest ⟨hphi, hcall, ?_, ?_, ?_⟩
  · intro x hx
    rcases hoperands _ hx with heq | ⟨value, heq⟩
    · exact (hbase.read x heq.symm).resolve_left (by simp)
    · cases heq
  · intro c hc
    rcases hoperands _ hc with heq | ⟨value, heq⟩
    · obtain ⟨hsame, hnone⟩ := hbase.kept c heq.symm
      obtain rfl := Operand.const.inj hsame
      exact ⟨hholds, hnone⟩
    · obtain rfl := Operand.const.inj heq
      exact ⟨m.holds_i32 value, List.forall_mem_nil _⟩
  · intro address haddress
    obtain ⟨rfl, hty⟩ := hpointers address haddress
    exact hbase.typed .ptr (congrArg some hty)

theorem Replaces.of_step {ty : Ty} (hdest : op.dest? = some values'.length) (hty : c.ty = ty) :
    Replaces slots values (values' ++ [{ ty := ty }]) (code ++ [{ op := op }]) (.const c)
      (.var values'.length) where
  read x hx := by
    obtain rfl := Operand.var.inj hx
    exact .inr (.inr (mem_defsOf.mpr
      ⟨_, List.mem_append_right _ (List.mem_singleton_self _), hdest⟩))
  kept c hc := by cases hc
  typed ty' hty' := by
    obtain rfl := Option.some.inj hty'
    simp [Operand.typeIn, hty]

/-- What computes an operand of the module reads slots only. -/
theorem Computed.spec {o' : Operand} (h : Computed slots values o code o' values')
    (hslots : ∀ id x, slots.lookup id = some x → Operand.typeIn values (.var x) = some .ptr)
    (hsupplies : ∀ c, o = .const c → m.Supplies c) :
    Emitted slots.Has (m.Keeps slots) values values' code ∧
      Replaces slots values values' code o o' := by
  induction h with
  | var => exact ⟨.nil, fun x hx => .inl hx, fun c hc => (by cases hc), fun ty hty => hty⟩
  | const hnone =>
      refine ⟨.nil, fun x hx => (by cases hx), fun c hc => ⟨hc, ?_⟩, fun ty hty => hty⟩
      obtain rfl := Operand.const.inj hc
      exact hnone
  | @slot id slot hslot =>
      refine ⟨.nil, fun x hx => ?_, fun c hc => (by cases hc), fun ty hty => ?_⟩
      · obtain rfl := Operand.var.inj hx
        exact .inr (.inl ⟨id, hslot⟩)
      · rw [← hty]
        exact hslots id slot hslot
  | @elementPtr values' source base indices code o _ ih =>
      have hpart : m.Supplies base := (hsupplies _ rfl).part (.base .whole)
      obtain ⟨hcode, hbase⟩ := ih fun c hc => Operand.const.inj hc ▸ hpart
      refine ⟨hcode.of_step hbase hpart.holds rfl rfl rfl ?_ ?_, .of_step rfl rfl⟩
      · intro o' ho'
        rcases List.mem_cons.mp ho' with rfl | ho'
        · exact .inl rfl
        · obtain ⟨value, _, rfl⟩ := List.mem_map.mp ho'
          exact .inr ⟨value, rfl⟩
      · rintro address ⟨⟩
        exact ⟨rfl, (hsupplies _ rfl).pointers _ _ _ .whole⟩
  | @cast values' op value ty code o _ ih =>
      have hpart : m.Supplies value := (hsupplies _ rfl).part (.value .whole)
      obtain ⟨hcode, hvalue⟩ := ih fun c hc => Operand.const.inj hc ▸ hpart
      refine ⟨hcode.of_step hvalue hpart.holds rfl rfl rfl ?_ ?_, .of_step rfl rfl⟩
      · exact fun o' ho' => .inl (List.mem_singleton.mp ho')
      · intro address haddress
        cases haddress

/-- Code that computes operands is emitted code, and its results stand for them. -/
theorem ComputedAll.spec {os os' : List Operand} {code : List Instruction}
    (h : ComputedAll slots values os code os' values')
    (hslots : ∀ id x, slots.lookup id = some x → Operand.typeIn values (.var x) = some .ptr)
    (hsupplies : ∀ c, .const c ∈ os → m.Supplies c) :
    Emitted slots.Has (m.Keeps slots) values values' code ∧
      List.Forall₂ (Replaces slots values values' code) os os' := by
  induction h with
  | nil => exact ⟨.nil, .nil⟩
  | cons hfirst _ ih =>
      obtain ⟨hcode, hreplaces⟩ := hfirst.spec hslots fun c hc =>
        hsupplies c (hc ▸ List.mem_cons_self)
      obtain ⟨hmore, hrest⟩ := ih
        (fun id x hx => Operand.typeIn_of_prefix hcode.grows (hslots id x hx))
        (fun c hc => hsupplies c (List.mem_cons_of_mem _ hc))
      refine ⟨hcode.append hmore, .cons ?_ (hrest.imp fun o o' ho => ?_)⟩
      · exact hreplaces.mono List.prefix_rfl (List.subset_append_left _ _) hmore.grows
      · exact ho.mono hcode.grows (List.subset_append_right _ _) List.prefix_rfl

end

end Monolith

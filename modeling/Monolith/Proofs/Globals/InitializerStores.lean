import Monolith.Proofs.Globals.ExpandedCode

/-! # Stores of initializers

The initializer of a global is stored to its slot at once, but for the elements that are
constant expressions or refer to globals with slots. Each of these is taken out, and its
address and a store of it follow. The stores are given here as lists of instructions, so
that one can read off what is stored where.
-/

namespace Monolith

/-! ## What is taken out of an aggregate -/

namespace Constant

/-- Whether an element cannot stay in an aggregate that is stored at once. -/
def isMoved (tracked : GlobalId → Bool) (c : Constant) : Bool :=
  c.isExpr || c.global?.any tracked

mutual

/-- What is left when elements are taken out. -/
def remainder (tracked : GlobalId → Bool) : Constant → Constant
  | .aggregate ty elements => .aggregate ty (remainders tracked elements)
  | c => if c.isMoved tracked then .undef c.ty else c

def remainders (tracked : GlobalId → Bool) : List Constant → List Constant
  | [] => []
  | c :: cs => remainder tracked c :: remainders tracked cs

end

mutual

/-- The elements that are taken out, in order, each with the path to it. -/
def takenOut (tracked : GlobalId → Bool) (path : List Nat) :
    Constant → List (List Nat × Constant)
  | .aggregate _ elements => takenOutFrom tracked path 0 elements
  | c => if c.isMoved tracked then [(path, c)] else []

def takenOutFrom (tracked : GlobalId → Bool) (path : List Nat) (index : Nat) :
    List Constant → List (List Nat × Constant)
  | [] => []
  | c :: cs => takenOut tracked (path ++ [index]) c ++ takenOutFrom tracked path (index + 1) cs

end

variable {tracked : GlobalId → Bool}

mutual

/-- Only aggregates and undefined values are new in what is left. -/
theorem part_of_part_remainder : (c : Constant) → {p : Constant} → p.Part (c.remainder tracked) →
    p.isAggregate = false → (∀ ty, p ≠ .undef ty) → p.Part c
  | .aggregate ty elements, p, hp, haggregate, hundef => by
      rw [remainder] at hp
      cases hp with
      | whole => cases haggregate
      | element hmem hp =>
          obtain ⟨c, hc, hpart⟩ :=
            part_of_mem_remainders elements hmem hp haggregate hundef
          exact .element hc hpart
  | .int .., p, hp, _, hundef | .null, p, hp, _, hundef | .undef _, p, hp, _, hundef
  | .poison _, p, hp, _, hundef | .bytes _, p, hp, _, hundef | .function _, p, hp, _, hundef
  | .global _, p, hp, _, hundef | .elementPtr .., p, hp, _, hundef
  | .cast .., p, hp, _, hundef => by
      rw [remainder] at hp
      · split at hp
        next =>
          cases hp with
          | whole => exact absurd rfl (hundef _)
        next => exact hp
      · simp

theorem part_of_mem_remainders : (cs : List Constant) → {e p : Constant} →
    e ∈ remainders tracked cs → p.Part e → p.isAggregate = false → (∀ ty, p ≠ .undef ty) →
      ∃ c ∈ cs, p.Part c
  | c :: cs, e, p, he, hp, haggregate, hundef => by
      rcases List.mem_cons.mp he with rfl | he
      · exact ⟨c, List.mem_cons_self, part_of_part_remainder c hp haggregate hundef⟩
      · obtain ⟨c', hc', hpart⟩ := part_of_mem_remainders cs he hp haggregate hundef
        exact ⟨c', List.mem_cons_of_mem _ hc', hpart⟩

end

mutual

/-- What is taken out stood in the constant. -/
theorem part_of_mem_takenOut : (c : Constant) → {path : List Nat} →
    {entry : List Nat × Constant} → entry ∈ c.takenOut tracked path → entry.2.Part c
  | .aggregate ty elements, path, entry, h => by
      rw [takenOut] at h
      obtain ⟨c, hc, hpart⟩ := part_of_mem_takenOutFrom elements h
      exact .element hc hpart
  | .int .., path, entry, h | .null, path, entry, h | .undef _, path, entry, h
  | .poison _, path, entry, h | .bytes _, path, entry, h | .function _, path, entry, h
  | .global _, path, entry, h | .elementPtr .., path, entry, h | .cast .., path, entry, h => by
      rw [takenOut] at h
      · split at h
        next =>
          obtain rfl := List.mem_singleton.mp h
          exact .whole
        next => cases h
      · simp

theorem part_of_mem_takenOutFrom : (cs : List Constant) → {path : List Nat} → {index : Nat} →
    {entry : List Nat × Constant} → entry ∈ takenOutFrom tracked path index cs →
      ∃ c ∈ cs, entry.2.Part c
  | c :: cs, path, index, entry, h => by
      rw [takenOutFrom] at h
      rcases List.mem_append.mp h with h | h
      · exact ⟨c, List.mem_cons_self, part_of_mem_takenOut c h⟩
      · obtain ⟨c', hc', hpart⟩ := part_of_mem_takenOutFrom cs h
        exact ⟨c', List.mem_cons_of_mem _ hc', hpart⟩

end

end Constant

/-! ## The stores -/

/-- The address of each element and a store of it, with new variables from the given one on. -/
def elementStores (source : Ty) (base : Operand) :
    ValueId → List (List Nat × Constant) → List Instruction
  | _, [] => []
  | next, (path, value) :: rest =>
      { op := .elementPtr next source base
          ((0 :: path).map fun index => Operand.i32 (Int64.ofNat index)) true } ::
      { op := .store (.const value) (.var next) value.ty.alignWord } ::
        elementStores source base (next + 1) rest

def Constant.bulk (tracked : GlobalId → Bool) (c : Constant) : Constant :=
  if c.isAggregate then c.remainder tracked else c

def Constant.separate (tracked : GlobalId → Bool) (c : Constant) : List (List Nat × Constant) :=
  if c.isAggregate then c.takenOut tracked [] else []

namespace Global

def elements (tracked : GlobalId → Bool) (g : Global) : List (List Nat × Constant) :=
  match g.initializer with
  | none => []
  | some c => c.separate tracked

def stores (tracked : GlobalId → Bool) (slot next : ValueId) (g : Global) : List Instruction :=
  match g.initializer with
  | none => []
  | some c =>
      { op := .store (.const (c.bulk tracked)) (.var slot) g.alignment
        comment := some ("initializer of @" ++ g.name) } ::
        elementStores g.valueType (.var slot) next (g.elements tracked)

end Global

def initializerStores (tracked : GlobalId → Bool) :
    ValueId → ValueId → List Global → List Instruction
  | _, _, [] => []
  | slot, next, g :: rest =>
      g.stores tracked slot next ++
        initializerStores tracked (slot + 1) (next + (g.elements tracked).length) rest

def addresses (count : Nat) : List ValueInfo := List.replicate count { ty := .ptr }

/-- The stores go on with the variables behind those that are taken. -/
theorem elementStores_append (source : Ty) (base : Operand) (next : ValueId)
    (entries more : List (List Nat × Constant)) :
    elementStores source base next (entries ++ more) =
      elementStores source base next entries ++
        elementStores source base (next + entries.length) more := by
  induction entries generalizing next with
  | nil => rfl
  | cons entry entries ih =>
      rw [List.cons_append, elementStores, elementStores, ih, List.length_cons, Nat.add_right_comm,
        Nat.add_assoc]
      rfl

namespace StoreTarget

def storing (target : StoreTarget) (draft : Draft) (entries : List (List Nat × Constant)) :
    Draft :=
  { draft with
    values := draft.values ++ addresses entries.length
    code := draft.code ++
      elementStores target.source target.base draft.values.length entries }

variable (target : StoreTarget)

theorem storing_nil (draft : Draft) : target.storing draft [] = draft := by
  simp [storing, addresses, elementStores]

theorem storing_append (draft : Draft) (entries more : List (List Nat × Constant)) :
    target.storing draft (entries ++ more) =
      target.storing (target.storing draft entries) more := by
  simp [storing, addresses, elementStores_append]

theorem storeElement_eq (path : List Nat) (value : Constant) (draft : Draft) :
    target.storeElement path value draft =
      (.undef value.ty, target.storing draft [(path, value)]) :=
  congrArg (fun code => (Constant.undef value.ty,
      ({ draft with values := draft.values ++ [{ ty := .ptr }], code := code } : Draft)))
    (List.append_assoc draft.code [_] [_])

mutual

/-- Splitting leaves the remainder, and stores what is taken out on its way. -/
theorem splitElement_eq : (path : List Nat) → (c : Constant) → (draft : Draft) →
    target.splitElement path c draft =
      (c.remainder target.tracked, target.storing draft (c.takenOut target.tracked path))
  | path, .aggregate ty elements, draft => by
      change (let rest := target.splitElements path 0 elements draft
        (Constant.aggregate ty rest.1, rest.2)) = _
      rw [splitElements_eq path 0 elements draft]
      rfl
  | path, .elementPtr source base indices, draft =>
      storeElement_eq target path (.elementPtr source base indices) draft
  | path, .cast op value ty, draft => storeElement_eq target path (.cast op value ty) draft
  | path, .global id, draft => by
      have hmoved : (Constant.global id).isMoved target.tracked = target.tracked id := rfl
      rw [splitElement, Constant.remainder, Constant.takenOut, hmoved]
      · cases target.tracked id with
        | true => exact storeElement_eq target path (.global id) draft
        | false => exact (congrArg (Prod.mk _) (storing_nil target draft)).symm
      all_goals simp
  | path, .int .., draft | path, .null, draft | path, .undef _, draft | path, .poison _, draft
  | path, .bytes _, draft | path, .function _, draft =>
      (congrArg (Prod.mk _) (storing_nil target draft)).symm

theorem splitElements_eq : (path : List Nat) → (index : Nat) → (cs : List Constant) →
    (draft : Draft) → target.splitElements path index cs draft =
      (Constant.remainders target.tracked cs,
        target.storing draft (Constant.takenOutFrom target.tracked path index cs))
  | path, index, [], draft => (congrArg (Prod.mk _) (storing_nil target draft)).symm
  | path, index, c :: cs, draft => by
      change (let first := target.splitElement (path ++ [index]) c draft
        let rest := target.splitElements path (index + 1) cs first.2
        (first.1 :: rest.1, rest.2)) = _
      rw [splitElement_eq (path ++ [index]) c draft]
      dsimp only
      rw [splitElements_eq path (index + 1) cs, ← storing_append]
      rfl

end

/-- An initializer is split into what is stored at once and what is stored by itself. -/
theorem split_eq (c : Constant) (draft : Draft) : target.split c draft =
    (c.bulk target.tracked, target.storing draft (c.separate target.tracked)) := by
  unfold split Constant.bulk Constant.separate
  cases c.isAggregate with
  | true => exact splitElement_eq target [] c draft
  | false => exact (congrArg (Prod.mk _) (storing_nil target draft)).symm

end StoreTarget

namespace Localized

/-- The stores of an initializer, and the variables for the addresses in them. -/
theorem storeInitializer_eq (scope : Localized) (slot : ValueId) (g : Global)
    (values : List ValueInfo) : scope.storeInitializer slot g values =
      (g.stores scope.tracks slot values.length,
        values ++ addresses (g.elements scope.tracks).length) := by
  unfold storeInitializer Global.stores Global.elements
  cases g.initializer with
  | none => simp [addresses]
  | some c =>
      simp only [StateT.run, StoreTarget.split_eq]
      simp [StoreTarget.storing]

/-- The stores of all initializers, one global after the other. -/
theorem storeInitializers_eq (scope : Localized) (first : ValueId) (values : List ValueInfo) :
    scope.storeInitializers first values =
      (initializerStores scope.tracks first values.length (scope.globals.map Prod.snd),
        values ++ addresses ((scope.globals.map Prod.snd).flatMap
          (Global.elements scope.tracks)).length) := by
  -- by induction over the globals that are left, behind any code written before
  have hfold : ∀ (globals : List (GlobalId × Global)) (offset : Nat) (code : List Instruction)
      (values : List ValueInfo),
      (globals.zipIdx offset).foldl (fun state entry =>
        (state.1 ++ (scope.storeInitializer (first + entry.2) entry.1.2 state.2).1,
          (scope.storeInitializer (first + entry.2) entry.1.2 state.2).2)) (code, values) =
        (code ++ initializerStores scope.tracks (first + offset) values.length
            (globals.map Prod.snd),
          values ++ addresses ((globals.map Prod.snd).flatMap
            (Global.elements scope.tracks)).length) := by
    intro globals
    induction globals with
    | nil => simp [initializerStores, addresses]
    | cons entry globals ih =>
        intro offset code values
        rw [List.zipIdx_cons, List.foldl_cons, ih, storeInitializer_eq]
        simp [initializerStores, addresses, Nat.add_assoc]
  exact hfold scope.globals 0 [] values

end Localized

end Monolith

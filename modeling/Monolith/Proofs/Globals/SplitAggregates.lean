import Monolith.Proofs.Globals.InitializerStores
import Monolith.Proofs.Lists

/-! # Aggregates are split without loss

What is taken out of an aggregate is listed in the order of the paths to it. What is left is an
aggregate of the same shape without constant expressions and without tracked globals, and putting
back each element that was taken out at the end of its path gives the aggregate again.
-/

namespace Monolith

namespace Constant

/-! ## Elements and paths -/

/-- What holds of an aggregate if it holds of its elements, and of all other constants, holds of
every constant. -/
theorem aggregate_induction {P : Constant → Prop}
    (haggregate : ∀ ty elements, (∀ c ∈ elements, P c) → P (.aggregate ty elements))
    (hother : ∀ c, c.isAggregate = false → P c) : (c : Constant) → P c
  | .aggregate ty elements =>
      haggregate ty elements fun c _ => aggregate_induction haggregate hother c
  | .int .. | .null | .undef _ | .poison _ | .bytes _ | .global _ | .function _ | .elementPtr ..
  | .cast .. => hother _ rfl

def at? : Constant → List Nat → Option Constant
  | c, [] => some c
  | c, index :: path => (c.element? index).bind (at? · path)

def put (value : Constant) : List Nat → Constant → Constant
  | [], _ => value
  | index :: path, .aggregate ty elements =>
      .aggregate ty (elements.modify index (put value path))
  | _ :: _, c => c

def putAll (entries : List (List Nat × Constant)) (c : Constant) : Constant :=
  entries.foldl (fun c entry => put entry.2 entry.1 c) c

def outline (c : Constant) : Bool × Ty := (c.isAggregate, c.ty)

theorem element?_of_not_aggregate {c : Constant} (h : c.isAggregate = false) (index : Nat) :
    c.element? index = none := by
  cases c with
  | aggregate => cases h
  | _ => rfl

/-- The entries of an element, as entries of the aggregate. -/
def under (index : Nat) (entries : List (List Nat × Constant)) : List (List Nat × Constant) :=
  entries.map fun entry => (index :: entry.1, entry.2)

theorem putAll_append (entries more : List (List Nat × Constant)) (c : Constant) :
    putAll (entries ++ more) c = putAll more (putAll entries c) := List.foldl_append

theorem putAll_under (index : Nat) (entries : List (List Nat × Constant)) (ty : Ty)
    (elements : List Constant) :
    putAll (under index entries) (.aggregate ty elements) =
      .aggregate ty (elements.modify index (putAll entries)) := by
  induction entries generalizing elements with
  | nil => exact congrArg (Constant.aggregate ty) (List.modify_id index elements).symm
  | cons entry entries ih =>
      change putAll (under index entries)
        (.aggregate ty (elements.modify index (put entry.2 entry.1))) = _
      rw [ih, List.modify_modify_eq]
      rfl

/-! ## What is taken out -/

variable {tracked : GlobalId → Bool}

theorem takenOut_of_not_aggregate {c : Constant} (h : c.isAggregate = false) (path : List Nat) :
    c.takenOut tracked path = if c.isMoved tracked then [(path, c)] else [] := by
  cases c with
  | aggregate => cases h
  | _ => rfl

theorem remainder_of_not_aggregate {c : Constant} (h : c.isAggregate = false) :
    c.remainder tracked = if c.isMoved tracked then .undef c.ty else c := by
  cases c with
  | aggregate => cases h
  | _ => rfl

theorem remainders_eq_map (cs : List Constant) :
    remainders tracked cs = cs.map (remainder tracked) := by
  induction cs with
  | nil => rfl
  | cons c cs ih => rw [remainders, ih, List.map_cons]

/-- Paths are given from where the search begins. -/
theorem takenOut_eq_map (c : Constant) : ∀ path,
    c.takenOut tracked path =
      (c.takenOut tracked []).map fun entry => (path ++ entry.1, entry.2) := by
  induction c using aggregate_induction with
  | haggregate ty elements ih =>
      have hfrom : ∀ cs : List Constant, (∀ c ∈ cs, c ∈ elements) → ∀ path index,
          takenOutFrom tracked path index cs =
            (takenOutFrom tracked [] index cs).map fun entry => (path ++ entry.1, entry.2) := by
        intro cs
        induction cs with
        | nil => exact fun _ _ _ => rfl
        | cons c cs hrest =>
            intro hcs path index
            obtain ⟨hc, hcs⟩ := List.forall_mem_cons.mp hcs
            rw [takenOutFrom, takenOutFrom, hrest hcs path, ih c hc (path ++ [index]),
              ih c hc ([] ++ [index])]
            simp
      exact fun path => hfrom elements (fun _ h => h) path 0
  | hother c hc =>
      intro path
      rw [takenOut_of_not_aggregate hc, takenOut_of_not_aggregate hc]
      split <;> simp

theorem takenOutFrom_cons (index : Nat) (c : Constant) (cs : List Constant) :
    takenOutFrom tracked [] index (c :: cs) =
      under index (c.takenOut tracked []) ++ takenOutFrom tracked [] (index + 1) cs := by
  rw [takenOutFrom, takenOut_eq_map]
  rfl

theorem exists_of_mem_takenOutFrom {cs : List Constant} {index : Nat}
    {entry : List Nat × Constant} (h : entry ∈ takenOutFrom tracked [] index cs) :
    ∃ offset c path, cs[offset]? = some c ∧ entry.1 = (index + offset) :: path ∧
      (path, entry.2) ∈ c.takenOut tracked [] := by
  induction cs generalizing index with
  | nil => cases h
  | cons c cs ih =>
      rw [takenOutFrom_cons, List.mem_append] at h
      rcases h with h | h
      · obtain ⟨below, hbelow, rfl⟩ := List.mem_map.mp h
        exact ⟨0, c, below.1, rfl, rfl, hbelow⟩
      · obtain ⟨offset, element, path, helement, hpath, hmem⟩ := ih h
        exact ⟨offset + 1, element, path, helement, by rw [hpath, Nat.add_right_comm]; rfl, hmem⟩

/-- The paths come in lexicographic order, each only once. -/
theorem takenOut_increasing (c : Constant) :
    (c.takenOut tracked []).Pairwise fun a b => List.Lex (· < ·) a.1 b.1 := by
  induction c using aggregate_induction with
  | haggregate ty elements ih =>
      have hfrom : ∀ cs : List Constant, (∀ c ∈ cs, c ∈ elements) → ∀ index,
          (takenOutFrom tracked [] index cs).Pairwise fun a b => List.Lex (· < ·) a.1 b.1 := by
        intro cs
        induction cs with
        | nil => exact fun _ _ => .nil
        | cons c cs hrest =>
            intro hcs index
            obtain ⟨hc, hcs⟩ := List.forall_mem_cons.mp hcs
            rw [takenOutFrom_cons, List.pairwise_append]
            refine ⟨?_, hrest hcs (index + 1), fun a ha b hb => ?_⟩
            · exact List.pairwise_map.mpr ((ih c hc).imp fun h => .cons h)
            · -- the first element comes before all others
              obtain ⟨below, _, rfl⟩ := List.mem_map.mp ha
              obtain ⟨offset, _, path, _, hpath, _⟩ := exists_of_mem_takenOutFrom hb
              rw [hpath]
              exact .rel (by omega)
      exact hfrom elements (fun _ h => h) 0
  | hother c hc =>
      rw [takenOut_of_not_aggregate hc]
      split
      next => exact List.pairwise_singleton _ _
      next => exact .nil

theorem at?_of_mem_takenOut (c : Constant) : ∀ entry ∈ c.takenOut tracked [],
    c.at? entry.1 = some entry.2 := by
  induction c using aggregate_induction with
  | haggregate ty elements ih =>
      intro entry hentry
      obtain ⟨index, c, path, hc, hpath, hmem⟩ := exists_of_mem_takenOutFrom hentry
      rw [Nat.zero_add] at hpath
      rw [hpath, at?]
      change elements[index]?.bind _ = _
      rw [hc]
      exact ih c (List.mem_of_getElem? hc) (path, entry.2) hmem
  | hother c hc =>
      intro entry hentry
      rw [takenOut_of_not_aggregate hc] at hentry
      split at hentry
      next =>
        obtain rfl := List.mem_singleton.mp hentry
        rfl
      next => cases hentry

/-- What was taken out is put back. -/
theorem putAll_takenOut (c : Constant) :
    putAll (c.takenOut tracked []) (c.remainder tracked) = c := by
  induction c using aggregate_induction with
  | haggregate ty elements ih =>
      -- by induction over the elements that are not put back yet, behind those that are
      have hfrom : ∀ cs : List Constant, (∀ c ∈ cs, c ∈ elements) → ∀ front : List Constant,
          putAll (takenOutFrom tracked [] front.length cs)
              (.aggregate ty (front ++ cs.map (remainder tracked))) =
            .aggregate ty (front ++ cs) := by
        intro cs
        induction cs with
        | nil => exact fun _ _ => rfl
        | cons c cs hrest =>
            intro hcs front
            obtain ⟨hc, hcs⟩ := List.forall_mem_cons.mp hcs
            have hlast := hrest hcs (front ++ [c])
            rw [List.length_append, List.append_assoc, List.append_assoc] at hlast
            rw [takenOutFrom_cons, putAll_append, putAll_under, List.map_cons, modify_append_cons,
              ih c hc]
            exact hlast
      rw [remainder, remainders_eq_map]
      exact hfrom elements (fun _ h => h) []
  | hother c hc =>
      rw [takenOut_of_not_aggregate hc, remainder_of_not_aggregate hc]
      split <;> rfl

/-! ## What is left -/

theorem not_moved_of_part_remainder (c : Constant) : ∀ p : Constant, p.Part (c.remainder tracked) →
    p.isMoved tracked = false := by
  induction c using aggregate_induction with
  | haggregate ty elements ih =>
      intro p hp
      rw [remainder, remainders_eq_map] at hp
      cases hp with
      | whole => rfl
      | element hmem hp =>
          obtain ⟨c, hc, rfl⟩ := List.mem_map.mp hmem
          exact ih c hc p hp
  | hother c hc =>
      intro p hp
      rw [remainder_of_not_aggregate hc] at hp
      split at hp
      next =>
        cases hp with
        | whole => rfl
      next hmoved =>
        -- an element that stays is a leaf
        cases hp with
        | whole => exact Bool.eq_false_iff.mpr hmoved
        | element => cases hc
        | base => exact absurd rfl hmoved
        | value => exact absurd rfl hmoved

theorem outline_remainder (c : Constant) : (c.remainder tracked).outline = c.outline := by
  cases hc : c.isAggregate with
  | true =>
      cases c with
      | aggregate => rfl
      | _ => cases hc
  | false =>
      rw [remainder_of_not_aggregate hc]
      split
      next => exact Prod.ext hc.symm rfl
      next => rfl

theorem element?_remainder (c : Constant) (index : Nat) :
    (c.remainder tracked).element? index = (c.element? index).map (remainder tracked) := by
  cases hc : c.isAggregate with
  | true =>
      cases c with
      | aggregate ty elements =>
          rw [remainder, remainders_eq_map]
          exact List.getElem?_map
      | _ => cases hc
  | false =>
      have hrest : (c.remainder tracked).isAggregate = false :=
        (congrArg Prod.fst c.outline_remainder).trans hc
      rw [element?_of_not_aggregate hc, element?_of_not_aggregate hrest]
      rfl

/-- At every path there is an element just if there was one, and it has the same outline. -/
theorem outline_at?_remainder (path : List Nat) : ∀ c : Constant,
    ((c.remainder tracked).at? path).map outline = (c.at? path).map outline := by
  induction path with
  | nil => exact fun c => congrArg some c.outline_remainder
  | cons index path ih =>
      intro c
      rw [at?, at?, element?_remainder]
      cases c.element? index with
      | none => rfl
      | some element => exact ih element

/-- Every index on the way to an element is one of an element of an aggregate. -/
theorem lt_of_at? {path : List Nat} : ∀ {c value : Constant}, c.at? path = some value →
    ∀ index ∈ path, ∃ ty elements, (Constant.aggregate ty elements).Part c ∧
      index < elements.length := by
  induction path with
  | nil => exact fun _ => List.forall_mem_nil _
  | cons first path ih =>
      intro c value h
      obtain ⟨element, helement, hrest⟩ := Option.bind_eq_some_iff.mp h
      cases hc : c.isAggregate with
      | false =>
          rw [element?_of_not_aggregate hc] at helement
          cases helement
      | true =>
          cases c with
          | aggregate ty elements =>
              have hget : elements[first]? = some element := helement
              refine List.forall_mem_cons.mpr ⟨⟨ty, elements, .whole, ?_⟩, fun index hindex => ?_⟩
              · exact (List.getElem?_eq_some_iff.mp hget).1
              · obtain ⟨ty', inner, hpart, hlt⟩ := ih hrest index hindex
                exact ⟨ty', inner, .element (List.mem_of_getElem? hget) hpart, hlt⟩
          | _ => cases hc

/-- The constant is split into what is left of it and the elements that are taken out, each with
the path to it. -/
structure SplitsInto (tracked : GlobalId → Bool) (c rest : Constant)
    (entries : List (List Nat × Constant)) : Prop where
  increasing : (entries.map Prod.fst).Pairwise (List.Lex (· < ·))
  elements : ∀ entry ∈ entries, c.at? entry.1 = some entry.2
  neutral : ∀ part : Constant, part.Part rest →
    part.isExpr = false ∧ ∀ id, part = .global id → tracked id = false
  outline : ∀ path, (rest.at? path).map outline = (c.at? path).map outline
  restored : putAll entries rest = c
  /-- Paths are the same numbers as words, if no aggregate is too long for its indices. -/
  words : (∀ ty elements, (Constant.aggregate ty elements).Part c →
      2 * elements.length ≤ Int64.size) →
    ∀ entry ∈ entries, ∀ index ∈ entry.1, (Int64.ofNat index).toInt = index

theorem splitsInto_takenOut (tracked : GlobalId → Bool) (c : Constant) :
    c.SplitsInto tracked (c.remainder tracked) (c.takenOut tracked []) where
  increasing := List.pairwise_map.mpr c.takenOut_increasing
  elements := c.at?_of_mem_takenOut
  neutral part hpart := by
    have hmoved := c.not_moved_of_part_remainder part hpart
    rw [isMoved, Bool.or_eq_false_iff] at hmoved
    refine ⟨hmoved.1, ?_⟩
    rintro id rfl
    exact hmoved.2
  outline path := outline_at?_remainder path c
  restored := c.putAll_takenOut
  words hshort entry hentry index hindex := by
    obtain ⟨ty, elements, hpart, hlt⟩ := lt_of_at? (c.at?_of_mem_takenOut entry hentry) index hindex
    have hlength := hshort ty elements hpart
    refine Int64.toInt_ofNat_of_lt ?_
    rw [Int64.size] at hlength
    omega

end Constant

namespace StoreTarget

variable (target : StoreTarget)

/-- For each entry, the code computes the address of the element, in a variable of its own, and
stores the element there. -/
structure StoresEach (first : ValueId) (entries : List (List Nat × Constant))
    (code : List Instruction) : Prop where
  length : code.length = 2 * entries.length
  address : ∀ k path value, entries[k]? = some (path, value) → code[2 * k]? = some
    { op := .elementPtr (first + k) target.source target.base
        ((0 :: path).map fun index => Operand.i32 (Int64.ofNat index)) true }
  store : ∀ k path value, entries[k]? = some (path, value) → code[2 * k + 1]? = some
    { op := .store (.const value) (.var (first + k)) value.ty.alignWord }

theorem storesEach_elementStores (first : ValueId) (entries : List (List Nat × Constant)) :
    target.StoresEach first entries (elementStores target.source target.base first entries) := by
  induction entries generalizing first with
  | nil =>
      constructor
      case length => rfl
      all_goals
        intro k path value h
        cases h
  | cons entry entries ih =>
      obtain ⟨hlength, haddress, hstore⟩ := ih (first + 1)
      constructor
      case length =>
        rw [elementStores, List.length_cons, List.length_cons, hlength, List.length_cons]
        omega
      case address =>
        intro k path value h
        cases k with
        | zero =>
            obtain rfl := Option.some.inj h
            rfl
        | succ k =>
            have hnext := haddress k path value h
            rw [Nat.add_assoc, Nat.add_comm 1 k] at hnext
            exact hnext
      case store =>
        intro k path value h
        cases k with
        | zero =>
            obtain rfl := Option.some.inj h
            rfl
        | succ k =>
            have hnext := hstore k path value h
            rw [Nat.add_assoc, Nat.add_comm 1 k] at hnext
            exact hnext

/-- Splitting an aggregate takes elements out of it in the order of their paths, and writes the
address and the store of each, with new variables for the addresses. Nothing is lost: what is left
has the same shape, has nothing in it that would have to be taken out, and becomes the aggregate
again when the elements are put back. -/
theorem split_loses_nothing (ty : Ty) (elements : List Constant) (draft : Draft) :
    ∃ rest entries stores,
      (target.split (.aggregate ty elements)).run draft =
        (rest, { draft with
          values := draft.values ++ List.replicate entries.length { ty := .ptr }
          code := draft.code ++ stores }) ∧
      target.StoresEach draft.values.length entries stores ∧
      (Constant.aggregate ty elements).SplitsInto target.tracked rest entries :=
  ⟨_, _, _, target.split_eq (.aggregate ty elements) draft, target.storesEach_elementStores _ _,
    Constant.splitsInto_takenOut target.tracked _⟩

end StoreTarget

end Monolith

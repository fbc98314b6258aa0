import Monolith.Proofs.Module.Census

/-! # Sizes and offsets

The layout of types as numbers without a bound: the size of a type, and where the element at the
end of a path of indices lies in it. Where sizes fit into a word, they are these. A type fills a
multiple of its alignment, and an element lies at a multiple of its own alignment, as long as no
packed struct is on the way to it.
-/

namespace Monolith

theorem dvd_roundUp (offset : Nat) {align : Nat} (h : 0 < align) :
    align ∣ roundUp offset align := by
  unfold roundUp
  split
  next hle =>
    obtain rfl : align = 1 := Nat.le_antisymm hle h
    exact Nat.one_dvd offset
  next => exact Nat.dvd_mul_left align _

theorem leastPowerOfTwo_cases (n : Nat) :
    leastPowerOfTwo n = 1 ∨ leastPowerOfTwo n = 2 ∨ leastPowerOfTwo n = 4 ∨
      (8 ≤ leastPowerOfTwo n ∧ 8 ∣ leastPowerOfTwo n) := by
  unfold leastPowerOfTwo
  split
  next => exact .inl rfl
  next =>
    cases Nat.log2 (n - 1) with
    | zero => exact .inr (.inl rfl)
    | succ k =>
        cases k with
        | zero => exact .inr (.inr (.inl rfl))
        | succ k =>
            -- from eight on, powers of two are multiples of eight
            have hpos : 0 < 1 <<< k := by
              rw [Nat.shiftLeft_eq, Nat.one_mul]
              exact Nat.two_pow_pos k
            have heq : 1 <<< (k + 1 + 1 + 1) = 8 * 1 <<< k := by
              simp only [Nat.shiftLeft_eq, Nat.pow_succ]
              omega
            exact .inr (.inr (.inr ⟨by omega, heq ▸ Nat.dvd_mul_right 8 _⟩))

namespace Ty

/-! ## Alignments -/

mutual

theorem align_cases : (ty : Ty) → ty.align = 1 ∨ ty.align = 2 ∨ ty.align = 4 ∨ ty.align = 8
  | .void => .inl rfl
  | .ptr => .inr (.inr (.inr rfl))
  | .int bits => by
      rw [align, integerSize]
      have hcases := leastPowerOfTwo_cases (max ((bits.toNat + 7) / 8) 1)
      omega
  | .array element _ => align_cases element
  | .struct fields packed => by
      rw [align]
      split
      next => exact .inl rfl
      next => exact alignAll_cases fields

theorem alignAll_cases : (fields : List Ty) →
    alignAll fields = 1 ∨ alignAll fields = 2 ∨ alignAll fields = 4 ∨ alignAll fields = 8
  | [] => .inl rfl
  | field :: fields => by
      rw [alignAll]
      have hfirst := align_cases field
      have hrest := alignAll_cases fields
      omega

end

theorem align_pos (ty : Ty) : 0 < ty.align := by
  have hcases := ty.align_cases
  omega

theorem alignAll_pos (fields : List Ty) : 0 < alignAll fields := by
  have hcases := alignAll_cases fields
  omega

theorem dvd_of_le {a b : Nat} (ha : a = 1 ∨ a = 2 ∨ a = 4 ∨ a = 8)
    (hb : b = 1 ∨ b = 2 ∨ b = 4 ∨ b = 8) (hle : a ≤ b) : a ∣ b := by
  rcases ha with rfl | rfl | rfl | rfl <;> omega

/-- The greatest alignment is a multiple of all others. -/
theorem align_dvd_alignAll {field : Ty} {fields : List Ty} (h : field ∈ fields) :
    field.align ∣ alignAll fields := by
  have hle : field.align ≤ alignAll fields := by
    induction fields with
    | nil => cases h
    | cons first fields ih =>
        rw [alignAll]
        rcases List.mem_cons.mp h with rfl | h
        · exact Nat.le_max_left _ _
        · exact Nat.le_trans (ih h) (Nat.le_max_right _ _)
  exact dvd_of_le field.align_cases (alignAll_cases fields) hle

/-! ## Sizes -/

def fieldStart (packed : Bool) (offset : Nat) (field : Ty) : Nat :=
  if packed then offset else roundUp offset field.align

mutual

/-- The size as a number without bound. -/
def extent : Ty → Nat
  | .void => 0
  | .int bits => integerSize bits
  | .ptr => pointerSize
  | .array element len => element.extent * len.toNat
  | .struct fields packed =>
      if packed then fieldsEnd true 0 fields
      else roundUp (fieldsEnd false 0 fields) (alignAll fields)

/-- Where the fields end that are placed one after the other from `offset` on. -/
def fieldsEnd (packed : Bool) (offset : Nat) : List Ty → Nat
  | [] => offset
  | field :: rest => fieldsEnd packed (fieldStart packed offset field + field.extent) rest

end

theorem checked64_eq_ok_iff {n k : Nat} : checked64 n = .ok k ↔ k = n ∧ n < UInt64.size := by
  unfold checked64
  split
  next hlt =>
    rw [Except.ok.injEq]
    exact ⟨fun h => ⟨h.symm, hlt⟩, fun h => h.1.symm⟩
  next hlt => exact ⟨fun h => absurd h (by simp), fun h => absurd h.2 hlt⟩

/-- The start of a field needs no check of its own: the field does not end before it. -/
theorem endOffset_cons_eq_ok_iff {packed : Bool} {offset n : Nat} {field : Ty} {rest : List Ty} :
    endOffset packed offset (field :: rest) = .ok n ↔
      ∃ size, field.size = .ok size ∧ fieldStart packed offset field + size < UInt64.size ∧
        endOffset packed (fieldStart packed offset field + size) rest = .ok n := by
  cases packed with
  | true =>
      simp only [endOffset, fieldStart, if_true, pure_bind, bind_eq_ok, checked64_eq_ok_iff,
        and_assoc, exists_eq_left]
  | false =>
      simp only [endOffset, fieldStart, Bool.false_eq_true, if_false, bind_eq_ok,
        checked64_eq_ok_iff, and_assoc, exists_eq_left]
      refine ⟨And.right, fun h => ⟨?_, h⟩⟩
      obtain ⟨size, _, hlt, _⟩ := h
      exact Nat.lt_of_le_of_lt (Nat.le_add_right _ size) hlt

mutual

/-- A size that is computed without overflow is the size without bound. -/
theorem extent_of_size : (ty : Ty) → {n : Nat} → ty.size = .ok n → ty.extent = n
  | .void, _, h | .int _, _, h | .ptr, _, h => Except.ok.inj h
  | .array element len, n, h => by
      rw [size] at h
      obtain ⟨k, hk, h⟩ := bind_eq_ok.mp h
      rw [extent, extent_of_size element hk, (checked64_eq_ok_iff.mp h).1]
  | .struct fields packed, n, h => by
      rw [size] at h
      obtain ⟨last, hlast, h⟩ := bind_eq_ok.mp h
      have hfields := fieldsEnd_of_endOffset packed 0 fields hlast
      cases packed with
      | true => exact hfields.trans (Except.ok.inj h)
      | false =>
          have hrounded : n = roundUp last (alignAll fields) := (checked64_eq_ok_iff.mp h).1
          rw [hrounded, ← hfields]
          rfl

theorem fieldsEnd_of_endOffset : (packed : Bool) → (offset : Nat) → (fields : List Ty) →
    {n : Nat} → endOffset packed offset fields = .ok n → fieldsEnd packed offset fields = n
  | _, _, [], _, h => Except.ok.inj h
  | packed, offset, field :: rest, n, h => by
      obtain ⟨size, hsize, _, h⟩ := endOffset_cons_eq_ok_iff.mp h
      rw [fieldsEnd, extent_of_size field hsize]
      exact fieldsEnd_of_endOffset packed _ rest h

end

/-- A type fills a multiple of its alignment. -/
theorem align_dvd_extent : (ty : Ty) → ty.align ∣ ty.extent
  | .void => Nat.dvd_zero _
  | .ptr => Nat.dvd_refl _
  | .int bits => by
      rw [align, extent]
      -- alignments stop at eight, sizes of integers do not
      by_cases hle : integerSize bits ≤ 8
      · exact ⟨1, by rw [Nat.min_eq_left hle, Nat.mul_one]⟩
      · rw [Nat.min_eq_right (Nat.le_of_not_le hle)]
        have hcases := leastPowerOfTwo_cases (max ((bits.toNat + 7) / 8) 1)
        rw [integerSize] at hle ⊢
        omega
  | .array element len => by
      rw [align, extent]
      exact Nat.dvd_mul_right_of_dvd (align_dvd_extent element) len.toNat
  | .struct fields packed => by
      rw [align, extent]
      split
      next => exact Nat.one_dvd _
      next => exact dvd_roundUp _ (alignAll_pos fields)

/-! ## Elements -/

/-- The field at the index of those that are placed from `offset` on: where it begins, and its
type. -/
def fieldAt? (packed : Bool) (offset : Nat) : List Ty → Nat → Option (Nat × Ty)
  | [], _ => none
  | field :: _, 0 => some (fieldStart packed offset field, field)
  | field :: rest, index + 1 =>
      fieldAt? packed (fieldStart packed offset field + field.extent) rest index

def elementAt? (index : Nat) : Ty → Option (Nat × Ty)
  | .array element len =>
      if index < len.toNat then some (element.extent * index, element) else none
  | .struct fields packed => fieldAt? packed 0 fields index
  | _ => none

/-- The element at the end of the path: where it begins, and its type. -/
def place? : Ty → List Nat → Option (Nat × Ty)
  | ty, [] => some (0, ty)
  | ty, index :: path => (ty.elementAt? index).bind fun outer =>
      (outer.2.place? path).map fun inner => (outer.1 + inner.1, inner.2)

def isPacked : Ty → Bool
  | .struct _ packed => packed
  | _ => false

/-- Whether no packed struct is entered on the path. -/
def unpackedOn : Ty → List Nat → Bool
  | _, [] => true
  | ty, index :: path =>
      !ty.isPacked && (ty.elementType? index).all fun element => element.unpackedOn path

theorem fieldAt?_snd (packed : Bool) (offset : Nat) (fields : List Ty) (index : Nat) :
    (fieldAt? packed offset fields index).map Prod.snd = fields[index]? := by
  induction fields generalizing offset index with
  | nil => simp [fieldAt?]
  | cons field fields ih =>
      cases index with
      | zero => rfl
      | succ index => exact ih _ index

/-- Elements have the types that the type gives them. -/
theorem elementAt?_snd (ty : Ty) (index : Nat) :
    (ty.elementAt? index).map Prod.snd = ty.elementType? index := by
  cases ty with
  | array element len =>
      rw [elementAt?, elementType?]
      split <;> rfl
  | struct fields packed => exact fieldAt?_snd packed 0 fields index
  | _ => rfl

theorem align_dvd_fieldAt? {offset index : Nat} {fields : List Ty} {place : Nat × Ty}
    (h : fieldAt? false offset fields index = some place) : place.2.align ∣ place.1 := by
  induction fields generalizing offset index with
  | nil => simp [fieldAt?] at h
  | cons field fields ih =>
      cases index with
      | zero =>
          obtain rfl := Option.some.inj h
          exact dvd_roundUp offset field.align_pos
      | succ index => exact ih h

/-- An element of a type that is not packed begins at a multiple of its alignment, of which the
alignment of the type is a multiple. -/
theorem align_dvd_elementAt? {ty : Ty} {index : Nat} {place : Nat × Ty}
    (h : ty.elementAt? index = some place) (hpacked : ty.isPacked = false) :
    place.2.align ∣ place.1 ∧ place.2.align ∣ ty.align := by
  cases ty with
  | array element len =>
      rw [elementAt?] at h
      split at h
      next =>
        obtain rfl := Option.some.inj h
        exact ⟨Nat.dvd_mul_right_of_dvd element.align_dvd_extent index, Nat.dvd_refl _⟩
      next => cases h
  | struct fields packed =>
      obtain rfl : packed = false := hpacked
      refine ⟨align_dvd_fieldAt? h, align_dvd_alignAll (List.mem_of_getElem? (i := index) ?_)⟩
      rw [← fieldAt?_snd false 0]
      exact congrArg (Option.map Prod.snd) h
  | _ => cases h

/-- The same for the element at the end of a path on which no packed struct is entered. -/
theorem align_dvd_place? {path : List Nat} : ∀ {ty : Ty} {place : Nat × Ty},
    ty.place? path = some place → ty.unpackedOn path = true →
      place.2.align ∣ place.1 ∧ place.2.align ∣ ty.align := by
  induction path with
  | nil =>
      intro ty place h _
      obtain rfl := Option.some.inj h
      exact ⟨Nat.dvd_zero _, Nat.dvd_refl _⟩
  | cons index path ih =>
      intro ty place h hunpacked
      obtain ⟨outer, houter, h⟩ := Option.bind_eq_some_iff.mp h
      obtain ⟨inner, hinner, rfl⟩ := Option.map_eq_some_iff.mp h
      have helement : ty.elementType? index = some outer.2 := by
        rw [← elementAt?_snd, houter]
        rfl
      rw [unpackedOn, helement, Bool.and_eq_true] at hunpacked
      have hpacked : ty.isPacked = false := by simpa using hunpacked.1
      obtain ⟨houter_start, houter_align⟩ := align_dvd_elementAt? houter hpacked
      obtain ⟨hinner_start, hinner_align⟩ := ih hinner hunpacked.2
      refine ⟨Nat.dvd_add ?_ hinner_start, Nat.dvd_trans hinner_align houter_align⟩
      exact Nat.dvd_trans hinner_align houter_start

end Ty

end Monolith

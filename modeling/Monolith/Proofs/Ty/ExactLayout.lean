import Mathlib.Order.Bounds.Basic
import Monolith.Proofs.Ty.Layout

/-! # Exact layout

The rules of layout say how many bytes a type occupies, whatever that number is. The size of a
type is computed without overflow exactly if no type in it, itself included, occupies more bytes
than a word can count, and then it is the number of bytes that the type occupies.
-/

namespace Monolith

theorem isLeast_roundUp (offset : Nat) {align : Nat} (h : 0 < align) :
    IsLeast {n | offset ≤ n ∧ align ∣ n} (roundUp offset align) := by
  have hle : ∀ n, roundUp offset align ≤ n * align ↔ offset ≤ n * align := by
    intro n
    unfold roundUp
    split
    next => exact Iff.rfl
    next =>
      rw [Nat.mul_le_mul_right_iff h, Nat.div_le_iff_le_mul_add_pred h, Nat.mul_comm align n]
      omega
  refine ⟨⟨?_, dvd_roundUp offset h⟩, ?_⟩
  · obtain ⟨n, hn⟩ := dvd_roundUp offset h
    rw [Nat.mul_comm] at hn
    rw [hn, ← hle, hn]
  · rintro _ ⟨hoffset, n, rfl⟩
    rw [Nat.mul_comm] at hoffset ⊢
    exact (hle n).mpr hoffset

theorem isLeast_leastPowerOfTwo (n : Nat) :
    IsLeast {k | n ≤ k ∧ k.isPowerOfTwo} (leastPowerOfTwo n) := by
  unfold leastPowerOfTwo
  split
  next hn => exact ⟨⟨hn, 0, rfl⟩, fun k hk => Nat.pos_of_isPowerOfTwo hk.2⟩
  next hn =>
    rw [Nat.one_shiftLeft]
    refine ⟨⟨?_, _, rfl⟩, ?_⟩
    · have hlt : n - 1 < 2 ^ ((n - 1).log2 + 1) := Nat.lt_log2_self
      omega
    · rintro _ ⟨hle, e, rfl⟩
      have hlog : (n - 1).log2 < e := (Nat.log2_lt (by omega)).mpr (by omega)
      exact Nat.pow_le_pow_right (by decide) hlog

namespace Ty

/-! ## The rules -/

mutual

/-- The type takes up the given number of bytes. -/
inductive Occupies : Ty → Nat → Prop where
  | void : Occupies .void 0
  | int {bits : UInt32} {n : Nat}
      (least : IsLeast {n | bits.toNat ≤ 8 * n ∧ n.isPowerOfTwo} n) : Occupies (.int bits) n
  | ptr : Occupies .ptr 8
  | array {element : Ty} {len : UInt64} {n : Nat} (helement : Occupies element n) :
      Occupies (.array element len) (n * len.toNat)
  | packed {fields : List Ty} {n : Nat} (hfields : OccupyTogether fields n) :
      Occupies (.struct fields true) n
  | struct {fields : List Ty} {last n : Nat} (hfields : EndAt 0 fields last)
      (least : IsLeast {n | last ≤ n ∧ (Ty.struct fields false).align ∣ n} n) :
      Occupies (.struct fields false) n

inductive OccupyTogether : List Ty → Nat → Prop where
  | nil : OccupyTogether [] 0
  | cons {field : Ty} {rest : List Ty} {n k : Nat} (hfield : Occupies field n)
      (hrest : OccupyTogether rest k) : OccupyTogether (field :: rest) (n + k)

/-- The types end at the given place if each is placed where its alignment first allows it,
not before the offset or the end of the one before it. -/
inductive EndAt : Nat → List Ty → Nat → Prop where
  | nil {offset : Nat} : EndAt offset [] offset
  | cons {field : Ty} {rest : List Ty} {offset start n last : Nat}
      (least : IsLeast {n | offset ≤ n ∧ field.align ∣ n} start) (hfield : Occupies field n)
      (hrest : EndAt (start + n) rest last) : EndAt offset (field :: rest) last

end

/-- The first type is the second or stands somewhere in it. -/
inductive Part (s : Ty) : Ty → Prop where
  | whole : Part s s
  | element {element : Ty} {len : UInt64} (hpart : Part s element) : Part s (.array element len)
  | field {fields : List Ty} {packed : Bool} {field : Ty} (hmem : field ∈ fields)
      (hpart : Part s field) : Part s (.struct fields packed)

/-! ## What types occupy -/

theorem isLeast_integerSize (bits : UInt32) :
    IsLeast {n | bits.toNat ≤ 8 * n ∧ n.isPowerOfTwo} (integerSize bits) := by
  have hsame : {n | bits.toNat ≤ 8 * n ∧ n.isPowerOfTwo} =
      {n | max ((bits.toNat + 7) / 8) 1 ≤ n ∧ n.isPowerOfTwo} := by
    ext n
    refine and_congr_left fun hn => ?_
    have hpos := Nat.pos_of_isPowerOfTwo hn
    omega
  rw [hsame]
  exact isLeast_leastPowerOfTwo _

theorem integerSize_lt (bits : UInt32) : integerSize bits < UInt64.size := by
  have hbits : bits.toNat < 4294967296 := bits.toNat_lt
  have hle : integerSize bits ≤ 536870912 :=
    (isLeast_integerSize bits).2 ⟨by omega, 29, by decide⟩
  exact Nat.lt_of_le_of_lt hle (by decide)

/-- Of fields without gaps, the places do not matter. -/
theorem fieldsEnd_packed (fields : List Ty) (offset : Nat) :
    fieldsEnd true offset fields = offset + fieldsEnd true 0 fields := by
  induction fields generalizing offset with
  | nil => rfl
  | cons field rest ih =>
      have hcons : ∀ offset, fieldsEnd true offset (field :: rest) =
          fieldsEnd true (offset + field.extent) rest := fun _ => rfl
      rw [hcons, hcons, ih, ih (0 + field.extent)]
      omega

mutual

/-- A type occupies the number of bytes that is its extent, and no other. -/
theorem occupies_iff : (ty : Ty) → {n : Nat} → (ty.Occupies n ↔ n = ty.extent)
  | .void, n => by
      constructor
      · rintro ⟨⟩
        rfl
      · rintro rfl
        exact .void
  | .ptr, n => by
      constructor
      · rintro ⟨⟩
        rfl
      · rintro rfl
        exact .ptr
  | .int bits, n => by
      constructor
      · intro h
        cases h with
        | int least => exact least.unique (isLeast_integerSize bits)
      · rintro rfl
        exact .int (isLeast_integerSize bits)
  | .array element len, n => by
      constructor
      · intro h
        cases h with
        | array helement => rw [extent, (occupies_iff element).mp helement]
      · rintro rfl
        exact .array ((occupies_iff element).mpr rfl)
  | .struct fields true, n => by
      constructor
      · intro h
        cases h with
        | packed hfields => exact (occupyTogether_iff fields).mp hfields
      · rintro rfl
        exact .packed ((occupyTogether_iff fields).mpr rfl)
  | .struct fields false, n => by
      have hround := isLeast_roundUp (fieldsEnd false 0 fields) (alignAll_pos fields)
      constructor
      · intro h
        cases h with
        | struct hfields least =>
            obtain rfl := (endAt_iff fields 0).mp hfields
            exact least.unique hround
      · rintro rfl
        exact .struct ((endAt_iff fields 0).mpr rfl) hround

theorem occupyTogether_iff : (fields : List Ty) → {n : Nat} →
    (OccupyTogether fields n ↔ n = fieldsEnd true 0 fields)
  | [], n => by
      constructor
      · rintro ⟨⟩
        rfl
      · rintro rfl
        exact .nil
  | field :: rest, n => by
      have hcons : fieldsEnd true 0 (field :: rest) = field.extent + fieldsEnd true 0 rest := by
        change fieldsEnd true (0 + field.extent) rest = _
        rw [fieldsEnd_packed, Nat.zero_add]
      rw [hcons]
      constructor
      · intro h
        cases h with
        | cons hfield hrest =>
            rw [(occupies_iff field).mp hfield, (occupyTogether_iff rest).mp hrest]
      · rintro rfl
        exact .cons ((occupies_iff field).mpr rfl) ((occupyTogether_iff rest).mpr rfl)

theorem endAt_iff : (fields : List Ty) → (offset : Nat) → {last : Nat} →
    (EndAt offset fields last ↔ last = fieldsEnd false offset fields)
  | [], offset, last => by
      constructor
      · rintro ⟨⟩
        rfl
      · rintro rfl
        exact .nil
  | field :: rest, offset, last => by
      have hround := isLeast_roundUp offset field.align_pos
      constructor
      · intro h
        cases h with
        | cons least hfield hrest =>
            obtain rfl := least.unique hround
            obtain rfl := (occupies_iff field).mp hfield
            exact (endAt_iff rest _).mp hrest
      · rintro rfl
        exact .cons hround ((occupies_iff field).mpr rfl) ((endAt_iff rest _).mpr rfl)

end

/-! ## Sizes in a word -/

theorem le_fieldStart (packed : Bool) (offset : Nat) (field : Ty) :
    offset ≤ fieldStart packed offset field := by
  unfold fieldStart
  split
  next => exact Nat.le_refl _
  next => exact (isLeast_roundUp offset field.align_pos).1.1

theorem le_fieldsEnd (packed : Bool) (offset : Nat) (fields : List Ty) :
    offset ≤ fieldsEnd packed offset fields := by
  induction fields generalizing offset with
  | nil => exact Nat.le_refl _
  | cons field rest ih =>
      have hstart := le_fieldStart packed offset field
      have hrest := ih (fieldStart packed offset field + field.extent)
      rw [fieldsEnd]
      omega

mutual

/-- The size is computed if no type in the type is too large. -/
theorem size_eq_ok : (ty : Ty) → (∀ s : Ty, s.Part ty → s.extent < UInt64.size) →
    ty.size = .ok ty.extent
  | .void, _ | .ptr, _ | .int _, _ => rfl
  | .array element len, h => by
      rw [size, size_eq_ok element fun s hs => h s (.element hs)]
      exact checked64_eq_ok_iff.mpr ⟨rfl, h _ .whole⟩
  | .struct fields packed, h => by
      have hparts : ∀ field ∈ fields, ∀ s : Ty, s.Part field → s.extent < UInt64.size :=
        fun field hmem s hs => h s (.field hmem hs)
      have hwhole := h _ .whole
      cases packed with
      | true =>
          rw [size, endOffset_eq_ok true 0 fields hparts hwhole]
          rfl
      | false =>
          have hle := (isLeast_roundUp (fieldsEnd false 0 fields) (alignAll_pos fields)).1.1
          rw [size, endOffset_eq_ok false 0 fields hparts (Nat.lt_of_le_of_lt hle hwhole)]
          exact checked64_eq_ok_iff.mpr ⟨rfl, hwhole⟩

/-- Fields end at a place that is computed if it and all that is in them is not too large. -/
theorem endOffset_eq_ok : (packed : Bool) → (offset : Nat) → (fields : List Ty) →
    (∀ field ∈ fields, ∀ s : Ty, s.Part field → s.extent < UInt64.size) →
    fieldsEnd packed offset fields < UInt64.size →
    endOffset packed offset fields = .ok (fieldsEnd packed offset fields)
  | _, _, [], _, _ => rfl
  | packed, offset, field :: rest, hfields, hend => by
      have hnext : fieldStart packed offset field + field.extent < UInt64.size :=
        Nat.lt_of_le_of_lt (le_fieldsEnd packed _ rest) hend
      refine endOffset_cons_eq_ok_iff.mpr
        ⟨field.extent, size_eq_ok field (hfields field List.mem_cons_self), hnext, ?_⟩
      exact endOffset_eq_ok packed _ rest
        (fun other hmem => hfields other (List.mem_cons_of_mem _ hmem)) hend

end

mutual

/-- If the size is computed, no type in the type is too large. -/
theorem extent_lt_of_size : (ty : Ty) → {n : Nat} → ty.size = .ok n →
    ∀ s : Ty, s.Part ty → s.extent < UInt64.size
  | .void, _, _, s, hs => by
      cases hs
      decide
  | .ptr, _, _, s, hs => by
      cases hs
      decide
  | .int bits, _, _, s, hs => by
      cases hs
      exact integerSize_lt bits
  | .array element len, n, h, s, hs => by
      have hextent := extent_of_size _ h
      rw [size] at h
      obtain ⟨k, hk, h⟩ := bind_eq_ok.mp h
      cases hs with
      | whole =>
          rw [hextent, (checked64_eq_ok_iff.mp h).1]
          exact (checked64_eq_ok_iff.mp h).2
      | element hs => exact extent_lt_of_size element hk s hs
  | .struct fields packed, n, h, s, hs => by
      have hextent := extent_of_size _ h
      rw [size] at h
      obtain ⟨last, hlast, h⟩ := bind_eq_ok.mp h
      obtain ⟨hlt, hfields⟩ := fieldsEnd_lt_of_endOffset packed 0 fields (by decide) hlast
      cases hs with
      | whole =>
          rw [hextent]
          cases packed with
          | true => exact Except.ok.inj h ▸ hlt
          | false =>
              obtain ⟨rfl, hrounded⟩ := checked64_eq_ok_iff.mp h
              exact hrounded
      | field hmem hs => exact hfields _ hmem s hs

theorem fieldsEnd_lt_of_endOffset : (packed : Bool) → (offset : Nat) → (fields : List Ty) →
    {n : Nat} → offset < UInt64.size → endOffset packed offset fields = .ok n →
    n < UInt64.size ∧ ∀ field ∈ fields, ∀ s : Ty, s.Part field → s.extent < UInt64.size
  | _, _, [], _, hoffset, h => by
      obtain rfl := Except.ok.inj h
      exact ⟨hoffset, by simp⟩
  | packed, offset, field :: rest, n, _, h => by
      obtain ⟨size, hsize, hnext, h⟩ := endOffset_cons_eq_ok_iff.mp h
      obtain ⟨hlt, hrest⟩ := fieldsEnd_lt_of_endOffset packed _ rest hnext h
      have hfirst := fun s => extent_lt_of_size field hsize s
      refine ⟨hlt, fun other hmem => ?_⟩
      rcases List.mem_cons.mp hmem with rfl | hmem
      · exact hfirst
      · exact hrest other hmem

end

theorem size_eq_ok_iff {ty : Ty} {n : Nat} :
    ty.size = .ok n ↔ n = ty.extent ∧ ∀ s : Ty, s.Part ty → s.extent < UInt64.size := by
  constructor
  · exact fun h => ⟨(extent_of_size ty h).symm, extent_lt_of_size ty h⟩
  · rintro ⟨rfl, h⟩
    exact size_eq_ok ty h

/-- Alignments are 1, 2, 4 or 8, and no size of an integer from which they are computed overflows.
Every type occupies one number of bytes, a multiple of its alignment. This is its size if a word
can count what each type in it occupies, and otherwise it has no size. -/
theorem layout_exact (ty : Ty) :
    (ty.align = 1 ∨ ty.align = 2 ∨ ty.align = 4 ∨ ty.align = 8) ∧
      (∀ bits, integerSize bits < UInt64.size) ∧
      ∃ bytes, (∀ n, ty.Occupies n ↔ n = bytes) ∧ ty.align ∣ bytes ∧
        (∀ n, ty.size = .ok n ↔
          n = bytes ∧ ∀ s : Ty, s.Part ty → ∀ k, s.Occupies k → k < UInt64.size) := by
  refine ⟨ty.align_cases, integerSize_lt, ty.extent, fun n => ty.occupies_iff,
    ty.align_dvd_extent, fun n => ?_⟩
  simp only [size_eq_ok_iff, occupies_iff, forall_eq]

/-- Also a type of which there is no element can be too large. -/
example : (Ty.array (.array .ptr 2305843009213693952) 0).size = .error .overflow := by decide

end Ty

end Monolith

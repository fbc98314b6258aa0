import Monolith.Proofs.Flattening.SafeFlattening
import Monolith.Proofs.Globals.SplitAggregates
import Monolith.Proofs.Ty.Layout

/-! # Alignment of element stores

An element that is taken out of an initializer is stored with the alignment of its own type. The
address is as well aligned as that if the slot is, and if the element begins at a multiple of it.
In a packed struct, or in a slot that is aligned less than its type, neither needs to be so.
-/

namespace Monolith

namespace Constant

/-! ## Initializers that fit their types -/

mutual

/-- Whether the constant has the type, and the elements of aggregates have the types that their
aggregates give them, at every level. -/
def fits : Constant → Ty → Bool
  | .aggregate ty elements, expected => ty = expected && fitsFrom ty 0 elements
  | c, expected => c.ty = expected

def fitsFrom (ty : Ty) (index : Nat) : List Constant → Bool
  | [] => true
  | c :: cs =>
      (ty.elementType? index).any (fun element => c.fits element) && fitsFrom ty (index + 1) cs

end

theorem ty_of_fits {c : Constant} {ty : Ty} (h : c.fits ty = true) : c.ty = ty := by
  cases c with
  | aggregate own elements =>
      rw [fits, Bool.and_eq_true] at h
      exact of_decide_eq_true h.1
  | _ => exact of_decide_eq_true h

theorem exists_of_fitsFrom {ty : Ty} {cs : List Constant} {first index : Nat} {c : Constant}
    (h : fitsFrom ty first cs = true) (hc : cs[index]? = some c) :
    ∃ element, ty.elementType? (first + index) = some element ∧ c.fits element = true := by
  induction cs generalizing first index with
  | nil => cases hc
  | cons head cs ih =>
      rw [fitsFrom, Bool.and_eq_true] at h
      cases index with
      | zero =>
          obtain rfl := Option.some.inj hc
          rw [Nat.add_zero]
          exact (Option.any_eq_true _ _).mp h.1
      | succ index =>
          have hrest := ih h.2 hc
          rwa [Nat.add_assoc, Nat.add_comm 1 index] at hrest

/-- An element of a constant that fits a type lies in the type, where it has its own type. -/
theorem exists_place {path : List Nat} : ∀ {c value : Constant} {ty : Ty},
    c.fits ty = true → c.at? path = some value →
      ∃ offset, ty.place? path = some (offset, value.ty) := by
  induction path with
  | nil =>
      intro c value ty hfits h
      obtain rfl := Option.some.inj h
      exact ⟨0, by rw [ty_of_fits hfits]; rfl⟩
  | cons index path ih =>
      intro c value ty hfits h
      obtain ⟨element, helement, hrest⟩ := Option.bind_eq_some_iff.mp h
      obtain ⟨inner, hinner, hfits⟩ : ∃ inner, ty.elementType? index = some inner ∧
          element.fits inner = true := by
        cases c with
        | aggregate own elements =>
            rw [fits, Bool.and_eq_true] at hfits
            have hfrom := exists_of_fitsFrom hfits.2 helement
            rwa [Nat.zero_add, of_decide_eq_true hfits.1] at hfrom
        | _ => cases helement
      obtain ⟨offset, hoffset⟩ := ih hfits hrest
      rw [← Ty.elementAt?_snd] at hinner
      obtain ⟨outer, houter, rfl⟩ := Option.map_eq_some_iff.mp hinner
      refine ⟨outer.1 + offset, ?_⟩
      rw [Ty.place?, houter, Option.bind_some, hoffset]
      rfl

theorem at?_of_mem_separate {tracked : GlobalId → Bool} {c : Constant}
    {entry : List Nat × Constant} (h : entry ∈ c.separate tracked) :
    c.at? entry.1 = some entry.2 := by
  unfold separate at h
  split at h
  next => exact c.at?_of_mem_takenOut entry h
  next => cases h

end Constant

/-- All addresses in slots of one alignment are as well aligned as asked just if the slot and the
offset are. -/
theorem forall_dvd_add_iff {slot offset align : Nat} :
    (∀ address, slot ∣ address → align ∣ address + offset) ↔ align ∣ slot ∧ align ∣ offset := by
  constructor
  · intro h
    -- the addresses 0 and `slot` decide
    have hoffset : align ∣ offset := by simpa using h 0 (Nat.dvd_zero slot)
    exact ⟨(Nat.dvd_add_iff_left hoffset).mpr (h slot (Nat.dvd_refl slot)), hoffset⟩
  · rintro ⟨hslot, hoffset⟩ address haddress
    exact Nat.dvd_add (Nat.dvd_trans hslot haddress) hoffset

/-- A slot is at least as well aligned as its type, unless the global asks for less. -/
theorem Global.align_dvd_alignment {g : Global}
    (h : ∀ align, g.align = some align → g.valueType.align ∣ align.toNat) :
    g.valueType.align ∣ g.alignment.toNat := by
  unfold alignment
  cases halign : g.align with
  | none =>
      rw [Option.getD_none, Ty.toNat_alignWord]
  | some align => exact h align halign

namespace Localized

/-- The stores that follow the store of an initializer which fits the type of its global. In
every slot that is aligned as the global asks, the address of an element is a multiple of the
alignment of its store, just if that alignment divides both the alignment of the slot and the
offset of the element. It does so if no packed struct is entered on the way to the element, and
the global does not ask for less than the alignment of its type. -/
theorem element_stores_aligned_iff (scope : Localized) (slot : ValueId) {g : Global}
    (values : List ValueInfo) {c : Constant} (hc : g.initializer = some c)
    (hfits : c.fits g.valueType = true) :
    ∃ whole entries stores,
      (scope.storeInitializer slot g values).1 = whole :: stores ∧
      StoreTarget.StoresEach { tracked := scope.tracks, source := g.valueType, base := .var slot }
        values.length entries stores ∧
      ∀ entry ∈ entries, ∃ offset,
        g.valueType.place? entry.1 = some (offset, entry.2.ty) ∧
        ((∀ address, g.alignment.toNat ∣ address →
            entry.2.ty.alignWord.toNat ∣ address + offset) ↔
          entry.2.ty.align ∣ g.alignment.toNat ∧ entry.2.ty.align ∣ offset) ∧
        (g.valueType.unpackedOn entry.1 = true →
          (∀ align, g.align = some align → g.valueType.align ∣ align.toNat) →
          ∀ address, g.alignment.toNat ∣ address →
            entry.2.ty.alignWord.toNat ∣ address + offset) := by
  have hcode := congrArg Prod.fst (storeInitializer_eq scope slot g values)
  simp only [Global.stores, Global.elements, hc] at hcode
  refine ⟨_, _, _, hcode, StoreTarget.storesEach_elementStores _ _ _, fun entry hentry => ?_⟩
  obtain ⟨offset, hplace⟩ := Constant.exists_place hfits (Constant.at?_of_mem_separate hentry)
  rw [Ty.toNat_alignWord]
  refine ⟨offset, hplace, forall_dvd_add_iff, fun hunpacked halign => ?_⟩
  obtain ⟨hstart, htype⟩ := Ty.align_dvd_place? hplace hunpacked
  exact forall_dvd_add_iff.mpr
    ⟨Nat.dvd_trans htype (Global.align_dvd_alignment halign), hstart⟩

/-- A byte and the address of the global itself, as a struct. -/
def tagged (packed : Bool) : Constant :=
  .aggregate (.struct [.int 8, .ptr] packed) [.int (.int 8) 1, .global 0]

def taggedGlobal (packed : Bool) : Global where
  name := "tagged"
  valueType := .struct [.int 8, .ptr] packed
  initializer := some (tagged packed)

def taggedScope (packed : Bool) : Localized :=
  { globals := [(0, taggedGlobal packed)], function := "main" }

theorem padded_element_aligned :
    (tagged false).fits (taggedGlobal false).valueType = true ∧
    ∃ whole entries stores,
      ((taggedScope false).storeInitializer 0 (taggedGlobal false) []).1 = whole :: stores ∧
      entries.length = 1 ∧
      StoreTarget.StoresEach
        { tracked := (taggedScope false).tracks, source := (taggedGlobal false).valueType,
          base := .var 0 } 0 entries stores ∧
      ∀ entry ∈ entries, ∃ offset,
        (taggedGlobal false).valueType.place? entry.1 = some (offset, entry.2.ty) ∧
        ((taggedGlobal false).valueType.unpackedOn entry.1 = true →
          ∀ address, (taggedGlobal false).alignment.toNat ∣ address →
            entry.2.ty.alignWord.toNat ∣ address + offset) := by
  have hfits : (tagged false).fits (taggedGlobal false).valueType = true := by decide
  obtain ⟨whole, entries, stores, hcode, heach, haligned⟩ :=
    element_stores_aligned_iff (taggedScope false) 0 (g := taggedGlobal false) [] rfl hfits
  have hlength := congrArg List.length hcode
  have hthree : ((taggedScope false).storeInitializer 0 (taggedGlobal false) []).1.length = 3 := by
    decide
  rw [hthree, List.length_cons, heach.length] at hlength
  refine ⟨hfits, whole, entries, stores, hcode, by omega, heach, fun entry hentry => ?_⟩
  obtain ⟨offset, hplace, -, hunpacked⟩ := haligned entry hentry
  have hdefault : ∀ align, (taggedGlobal false).align = some align →
      (taggedGlobal false).valueType.align ∣ align.toNat := by
    intro align halign
    cases halign
  exact ⟨offset, hplace, fun h => hunpacked h hdefault⟩

/-- In the packed struct the address stands at offset 1, in a slot of alignment 1, but is stored
with alignment 8. -/
theorem packed_element_misaligned :
    (tagged true).fits (taggedGlobal true).valueType = true ∧
    ((taggedScope true).storeInitializer 0 (taggedGlobal true) []).1[2]? =
      some { op := .store (.const (.global 0)) (.var 0) 8 } ∧
    ((taggedScope true).storeInitializer 0 (taggedGlobal true) []).1[1]? =
      some { op := .elementPtr 0 (taggedGlobal true).valueType (.var 0)
               [Operand.i32 0, Operand.i32 1] true } ∧
    (taggedGlobal true).valueType.place? [1] = some (1, .ptr) ∧
    (taggedGlobal true).alignment = 1 ∧
    ¬ ∀ address, (taggedGlobal true).alignment.toNat ∣ address → 8 ∣ address + 1 := by
  refine ⟨by decide, by decide, by decide, by decide, by decide, fun h => ?_⟩
  exact absurd (h 0 (Nat.dvd_zero _)) (by decide)

end Localized

end Monolith

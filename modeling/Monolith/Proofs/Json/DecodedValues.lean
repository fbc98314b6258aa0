import Mathlib.Data.List.Nodup
import Mathlib.Tactic.Common
import Monolith.Json.Decode

/-! # Decoding what was encoded

A decoder gives back a value from the document that is made of it, if it may open as many
containers as the document has inside one another.
-/

namespace Monolith.Json

variable {items : List Json} {tag : String}

mutual

/-- How many containers of the document are inside one another at most. -/
def nesting : Json → Nat
  | .arr items => itemNesting items + 1
  | .obj members => memberNesting members + 1
  | _ => 0

def itemNesting : List Json → Nat
  | [] => 0
  | item :: items => Nat.max item.nesting (itemNesting items)

def memberNesting : List (Option String × Json) → Nat
  | [] => 0
  | (_, value) :: members => Nat.max value.nesting (memberNesting members)

end

section

variable {levels : Nat}

@[simp] theorem nesting_string (text : String) : (string text).nesting = 0 := rfl

@[simp] theorem nesting_nat (value : Nat) : (nat value).nesting = 0 := rfl

@[simp] theorem nesting_bool (value : Bool) : (bool value).nesting = 0 := rfl

@[simp] theorem nesting_int (value : Int) : (int value).nesting = 0 := rfl

@[simp] theorem nesting_null : null.nesting = 0 := rfl

/-- The items are as deep as the deepest of them. -/
theorem itemNesting_le : itemNesting items ≤ levels ↔ ∀ item ∈ items, item.nesting ≤ levels := by
  induction items with
  | nil => simp [itemNesting]
  | cons item items ih => rw [itemNesting, Nat.max_le, ih, List.forall_mem_cons]

theorem memberNesting_le {members : List (Option String × Json)} :
    memberNesting members ≤ levels ↔ ∀ member ∈ members, member.2.nesting ≤ levels := by
  induction members with
  | nil => simp [memberNesting]
  | cons member members ih => rw [memberNesting, Nat.max_le, ih, List.forall_mem_cons]

theorem succ_le_iff_exists {depth : Nat} :
    depth + 1 ≤ levels ↔ ∃ inner, levels = inner + 1 ∧ depth ≤ inner := by
  constructor
  · intro h
    exact ⟨levels - 1, by omega, by omega⟩
  · rintro ⟨inner, rfl, h⟩
    exact Nat.succ_le_succ h

theorem nesting_arr_le :
    (arr items).nesting ≤ levels ↔
      ∃ inner, levels = inner + 1 ∧ ∀ item ∈ items, item.nesting ≤ inner := by
  rw [nesting, succ_le_iff_exists]
  simp only [itemNesting_le]

/-- An object is one level deeper than its members. -/
theorem nesting_object_le {members : List (String × Json)} :
    (object members).nesting ≤ levels ↔
      ∃ inner, levels = inner + 1 ∧ ∀ member ∈ members, member.2.nesting ≤ inner := by
  rw [object, nesting, succ_le_iff_exists]
  simp only [memberNesting_le, List.forall_mem_map]

/-- A tag is the only key of an object. -/
theorem tagged_eq (tag : String) (content : Json) :
    tagged tag content = .obj [(some tag, content)] := rfl

theorem nesting_tagged_le {content : Json} :
    (tagged tag content).nesting ≤ levels ↔
      ∃ inner, levels = inner + 1 ∧ content.nesting ≤ inner := by
  simp [tagged, nesting_object_le]

/-- A variant with fields takes two levels. -/
theorem nesting_variant_le {members : List (String × Json)} :
    (tagged tag (object members)).nesting ≤ levels ↔
      ∃ inner, levels = inner + 2 ∧ members.Forall fun member => member.2.nesting ≤ inner := by
  rw [nesting_tagged_le]
  constructor
  · rintro ⟨_, rfl, hcontent⟩
    obtain ⟨inner, rfl, hmembers⟩ := nesting_object_le.mp hcontent
    exact ⟨inner, rfl, List.forall_iff_forall_mem.mpr hmembers⟩
  · rintro ⟨inner, rfl, hmembers⟩
    have hmembers := List.forall_iff_forall_mem.mp hmembers
    exact ⟨inner + 1, rfl, nesting_object_le.mpr ⟨inner, rfl, hmembers⟩⟩

@[simp] theorem nesting_object_le_succ {members : List (String × Json)} :
    (object members).nesting ≤ levels + 1 ↔ ∀ member ∈ members, member.2.nesting ≤ levels := by
  rw [object, nesting, Nat.add_le_add_iff_right, memberNesting_le, List.forall_mem_map]

@[simp] theorem nesting_tagged_le_succ {content : Json} :
    (tagged tag content).nesting ≤ levels + 1 ↔ content.nesting ≤ levels := by
  simp [tagged]

@[simp] theorem nesting_arr_le_succ :
    (arr items).nesting ≤ levels + 1 ↔ ∀ item ∈ items, item.nesting ≤ levels := by
  rw [nesting, Nat.add_le_add_iff_right, itemNesting_le]

/-- What is left out takes no level. -/
theorem nesting_optional_le {value : Option Json} :
    (optional value).nesting ≤ levels ↔ ∀ json ∈ value, json.nesting ≤ levels := by
  cases value <;> simp [optional]

@[simp] theorem nesting_optional_nat (id : Option Nat) : (optional (id.map nat)).nesting = 0 := by
  cases id <;> rfl

end

/-! ## Single values -/

namespace Decode

section

variable {levels : Nat}

@[simp] theorem text_string (text : String) : Decode.text levels (.string text) = some text := rfl

@[simp] theorem bool_bool (value : Bool) : Decode.bool levels (.bool value) = some value := rfl

/-- A number is read back where it is below the bound. -/
theorem natBelow_nat {bound value : Nat} (h : value < bound) :
    natBelow bound levels (.nat value) = some value :=
  if_pos h

theorem index_nat {id : Nat} (h : id < UInt64.size) : index levels (.nat id) = some id :=
  natBelow_nat h

@[simp] theorem word64_nat (value : UInt64) : word64 levels (.nat value.toNat) = some value := by
  rw [word64, natBelow_nat value.toNat_lt]
  exact congrArg some UInt64.ofNat_toNat

@[simp] theorem word32_nat (value : UInt32) : word32 levels (.nat value.toNat) = some value := by
  rw [word32, natBelow_nat value.toNat_lt]
  exact congrArg some UInt32.ofNat_toNat

@[simp] theorem byte_nat (value : UInt8) : byte levels (.nat value.toNat) = some value := by
  rw [byte, natBelow_nat value.toNat_lt]
  exact congrArg some UInt8.ofNat_toNat

@[simp] theorem signed64_int (value : Int64) : signed64 levels (.int value.toInt) = some value := by
  have hle := value.le_toInt
  have hlt := value.toInt_lt
  rw [signed64, if_pos, Int64.ofInt_toInt]
  rw [Int64.toInt_minValue, Int64.toInt_maxValue]
  omega

end

/-! ## Lists and names -/

section

variable {α β : Type} {levels : Nat}

/-- A list is read back if all of its members are. -/
theorem mapM_map {write : α → Json} {read : Json → Option α} {values : List α}
    (h : ∀ value ∈ values, read (write value) = some value) :
    (values.map write).mapM read = some values := by
  induction values with
  | nil => rfl
  | cons value values ih =>
      obtain ⟨hvalue, hvalues⟩ := List.forall_mem_cons.mp h
      simp [List.mapM_cons, hvalue, ih hvalues]

/-- A list is read item by item, one level down. -/
theorem list_arr (item : Decoder α) {write : α → Json} {values : List α}
    (hlevels : (Json.arr (values.map write)).nesting ≤ levels)
    (h : ∀ value ∈ values, ∀ inner, (write value).nesting ≤ inner →
      item inner (write value) = some value) :
    list item levels (.arr (values.map write)) = some values := by
  obtain ⟨inner, rfl, hitems⟩ := nesting_arr_le.mp hlevels
  rw [List.forall_mem_map] at hitems
  exact mapM_map fun value hvalue => h value hvalue inner (hitems value hvalue)

/-- A name is read as the value that the table has for it. -/
theorem choice_string {names : List (String × α)} {name : String} {value : α}
    (h : names.lookup name = some value) : choice names levels (.string name) = some value := by
  rw [← h]
  cases levels <;> rfl

/-- A pair is read back from an array of two. -/
theorem pair_arr (first : Decoder α) (second : Decoder β) {a b : Json} {value : α × β}
    (hlevels : (Json.arr [a, b]).nesting ≤ levels)
    (ha : ∀ inner, a.nesting ≤ inner → first inner a = some value.1)
    (hb : ∀ inner, b.nesting ≤ inner → second inner b = some value.2) :
    pair first second levels (.arr [a, b]) = some value := by
  obtain ⟨inner, rfl, hitems⟩ := nesting_arr_le.mp hlevels
  simp only [List.forall_mem_cons] at hitems
  simp [pair, ha inner hitems.1, hb inner hitems.2.1]

end

end Decode

/-! ## Records -/

namespace Record

/-- The record of an object without repeated keys. -/
def ofMembers (members : List (String × Json)) : Record where
  positional := false
  member? := fun key => members.lookup key

variable {members : List (String × Json)}

/-- An object without repeated keys is read as the record of its members. -/
theorem ofJson?_object (keys : List String) (h : (members.map Prod.fst).Nodup) :
    ofJson? keys (object members) = some (ofMembers members) := by
  have hnamed : (members.map fun member => (some member.1, member.2)).mapM
      (fun (member : Option String × Json) => member.1.map (·, member.2)) = some members := by
    clear h
    induction members with
    | nil => rfl
    | cons member members ih => simp [List.mapM_cons, ih]
  have hcount : (keys.all fun key => (members.map Prod.fst).count key ≤ 1) = true := by
    rw [List.all_eq_true]
    exact fun key _ => decide_eq_true (List.nodup_iff_count_le_one.mp h key)
  -- no member is dropped for its key, and no known key comes twice
  rw [object, ofJson?, ofMembers?]
  change Option.bind (List.mapM _ _) _ = _
  rw [hnamed, Option.bind_some, if_pos hcount]
  rfl

section

variable {α : Type} {key : String} {read : Json → Option α}

@[simp] theorem required_ofMembers :
    (ofMembers members).required key read = (members.lookup key).bind read := rfl

@[simp] theorem withDefault_ofMembers (default : α) :
    (ofMembers members).withDefault key default read =
      ((members.lookup key).elim (some default) read) := by
  cases h : members.lookup key <;> simp [withDefault, ofMembers, h]

section

variable {levels : Nat} (item : Decoder α)

@[simp] theorem nullable_ofMembers :
    (ofMembers members).nullable key (item levels) =
      (members.lookup key).elim (some none) (Decode.nullable item levels) := by
  cases h : members.lookup key with
  | none => simp [nullable, ofMembers, h]
  | some value => cases value <;> simp [nullable, Decode.nullable, ofMembers, h]

@[simp] theorem optional_ofMembers :
    (ofMembers members).optional key (item levels) =
      (members.lookup key).elim (some none) (Decode.nullable item levels) := by
  cases h : members.lookup key with
  | none => simp [optional, ofMembers, h]
  | some value => cases value <;> simp [optional, Decode.nullable, ofMembers, h]

end

end

end Record

/-! ## Values that may be missing -/

/-- A member that is left out is not found, and changes no other key. -/
@[simp] theorem lookup_member? (key other : String) (value : Option Json) :
    (member? key value).lookup other = if other == key then value else none := by
  cases value with
  | none => simp [member?]
  | some value => cases h : other == key <;> simp [member?, List.lookup_cons, h]

theorem forall_mem_member? {key : String} {value : Option Json} {p : String × Json → Prop} :
    (∀ member ∈ member? key value, p member) ↔ ∀ v ∈ value, p (key, v) := by
  cases value <;> simp [member?]

theorem nat_ne_null (value : Nat) : nat value ≠ .null := by simp [nat]

theorem string_ne_null (text : String) : string text ≠ .null := by simp [string]

theorem object_ne_null (members : List (String × Json)) : object members ≠ .null := by
  simp [object]

namespace Decode

section

variable {α : Type} {levels : Nat} {write : α → Json} {item : Decoder α} {value : Option α}

/-- A value that is never written as null is told from none. -/
theorem nullable_value (hnull : ∀ v, write v ≠ .null) {v : α}
    (hread : item levels (write v) = some v) :
    nullable item levels (write v) = some (some v) := by
  rw [nullable, hread, Option.map_some]
  exact hnull v

/-- A missing value is written as null. -/
theorem nullable_optional (hnull : ∀ v, write v ≠ .null)
    (hread : ∀ v ∈ value, item levels (write v) = some v) :
    nullable item levels (.optional (value.map write)) = some value := by
  cases value with
  | none => rfl
  | some v => exact nullable_value hnull (hread v rfl)

/-- A missing value is not written. -/
theorem elim_nullable (hnull : ∀ v, write v ≠ .null)
    (hread : ∀ v ∈ value, item levels (write v) = some v) :
    (value.map write).elim (some none) (nullable item levels) = some value := by
  cases value with
  | none => rfl
  | some v => exact nullable_value hnull (hread v rfl)

end

end Decode

end Monolith.Json

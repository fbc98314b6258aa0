import Monolith.Json.Basic

/-! # Reading values out of documents

A decoder takes the number of containers that it may still open, one inside
the other. A record is an object, or an array of its fields in order; members
of an object that no field names are skipped whatever they hold, so they do not
count towards the nesting.
-/

namespace Monolith.Json

/-- Containers may be nested this deep. -/
def nestingLimit : Nat := 127

abbrev Decoder (α : Type) := Nat → Json → Option α

namespace Decode

def text : Decoder String
  | _, .str text => text
  | _, _ => none

def bool : Decoder Bool
  | _, .bool value => some value
  | _, _ => none

/-- A number below `bound`. -/
def natBelow (bound : Nat) : Decoder Nat
  | _, .int (.ofNat value) => if value < bound then some value else none
  | _, _ => none

/-- The position of an entity in its arena. -/
def index : Decoder Nat := natBelow UInt64.size

def word64 : Decoder UInt64 := fun levels json =>
  (natBelow UInt64.size levels json).map UInt64.ofNat

def word32 : Decoder UInt32 := fun levels json =>
  (natBelow UInt32.size levels json).map UInt32.ofNat

def byte : Decoder UInt8 := fun levels json =>
  (natBelow UInt8.size levels json).map UInt8.ofNat

def signed64 : Decoder Int64
  | _, .int value =>
      if Int64.minValue.toInt ≤ value ∧ value ≤ Int64.maxValue.toInt then
        some (Int64.ofInt value)
      else none
  | _, _ => none

def list {α : Type} (item : Decoder α) : Decoder (List α)
  | levels + 1, .arr items => items.mapM (item levels)
  | _, _ => none

def pair {α β : Type} (first : Decoder α) (second : Decoder β) : Decoder (α × β)
  | levels + 1, .arr [a, b] => do return (← first levels a, ← second levels b)
  | _, _ => none

def nullable {α : Type} (value : Decoder α) : Decoder (Option α)
  | _, .null => some none
  | levels, json => (value levels json).map some

/-- One of several names, written as a string or as the tag of an empty variant. -/
def choice {α : Type} (names : List (String × α)) : Decoder α
  | _, .str (some name) => names.lookup name
  | _ + 1, .obj [(some name, .null)] => names.lookup name
  | _, _ => none

end Decode

/-- The fields of a record by their keys. -/
structure Record where
  /-- Whether the fields are given by their positions in an array. -/
  positional : Bool
  member? : String → Option Json

namespace Record

def ofItems? (keys : List String) (items : List Json) : Option Record :=
  if items.length ≤ keys.length then
    some { positional := true, member? := fun key => (keys.zip items).lookup key }
  else none

/-- The members as fields: every key is a text, and no field is given twice. -/
def ofMembers? (keys : List String) (members : List (Option String × Json)) : Option Record := do
  let named ← members.mapM fun (key, value) => key.map (·, value)
  let names := named.map Prod.fst
  if keys.all fun key => names.count key ≤ 1 then
    some { positional := false, member? := fun key => named.lookup key }
  else none

def ofJson? (keys : List String) : Json → Option Record
  | .arr items => ofItems? keys items
  | .obj members => ofMembers? keys members
  | _ => none

/-- A record whose object form has no members but its fields. -/
def closed? (keys : List String) : Json → Option Record
  | .obj members =>
      if members.all fun (key, _) => key.any keys.contains then ofMembers? keys members else none
  | json => ofJson? keys json

def required {α : Type} (record : Record) (key : String) (read : Json → Option α) : Option α :=
  (record.member? key).bind read

def withDefault {α : Type} (record : Record) (key : String) (default : α)
    (read : Json → Option α) : Option α :=
  match record.member? key with
  | some json => read json
  | none => some default

/-- A field that may be null, and may be left out of the object form. -/
def nullable {α : Type} (record : Record) (key : String) (read : Json → Option α) :
    Option (Option α) :=
  match record.member? key with
  | some .null => some none
  | some json => (read json).map some
  | none => if record.positional then none else some none

/-- A field that may be null or left out. -/
def optional {α : Type} (record : Record) (key : String) (read : Json → Option α) :
    Option (Option α) :=
  match record.member? key with
  | some .null => some none
  | some json => (read json).map some
  | none => some none

end Record

end Monolith.Json

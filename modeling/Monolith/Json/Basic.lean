/-! # JSON documents

A document keeps the members of an object in the order in which they are
written, repeated keys included. Only integers carry a value: nothing that is
stored in a document is a fraction, so every other number is one constructor.
-/

namespace Monolith

inductive Json where
  | null
  | bool (value : Bool)
  | int (value : Int)
  /-- A number with a fraction or an exponent, and minus zero. -/
  | real
  /-- A string literal. It denotes no text if it has an unpaired surrogate escape. -/
  | str (text : Option String)
  | arr (items : List Json)
  | obj (members : List (Option String × Json))
  deriving Inhabited

namespace Json

def string (text : String) : Json := .str (some text)

def nat (value : Nat) : Json := .int value

/-- An object with the given members, in order. -/
def object (members : List (String × Json)) : Json :=
  .obj (members.map fun member => (some member.1, member.2))

/-- The member that the object has if the value is present. -/
def member? (key : String) (value : Option Json) : List (String × Json) :=
  match value with
  | some value => [(key, value)]
  | none => []

/-- An object with one member, the written form of a variant with content. -/
def tagged (tag : String) (content : Json) : Json := object [(tag, content)]

def optional (value : Option Json) : Json := value.getD .null

end Json

end Monolith

import Monolith.Json.Basic

/-! # Writing JSON text

A document has a compact form without blanks and a pretty form with one item
or member a line; an empty container is written alike in both. The quote, the
backslash and the characters below the blank are escaped, and every other
character stands for itself.
-/

namespace Monolith.Json

def hexDigit (value : Nat) : Char :=
  if value < 10 then Char.ofNat ('0'.toNat + value) else Char.ofNat ('a'.toNat + (value - 10))

def escape (c : Char) : List Char :=
  if c = '"' then ['\\', '"']
  else if c = '\\' then ['\\', '\\']
  else if c = '\x08' then ['\\', 'b']
  else if c = '\t' then ['\\', 't']
  else if c = '\n' then ['\\', 'n']
  else if c = '\x0c' then ['\\', 'f']
  else if c = '\r' then ['\\', 'r']
  else if c.toNat < 0x20 then
    ['\\', 'u', '0', '0', hexDigit (c.toNat / 16), hexDigit (c.toNat % 16)]
  else [c]

/-- A string literal; a literal without a text is an unpaired surrogate. -/
def quote : Option String → String
  | some text => "\"" ++ String.ofList (text.toList.flatMap escape) ++ "\""
  | none => "\"\\ud800\""

/-- How a container is laid out: what stands before each of its entries and its
closing bracket, by depth, and what stands between a key and its value. -/
structure Style where
  line : Nat → String
  colon : String

/-- Everything on one line, without blanks. -/
def Style.compact : Style where
  line _ := ""
  colon := ":"

/-- One entry a line, two blanks a level. -/
def Style.pretty : Style where
  line depth := "\n" ++ String.ofList (List.replicate (2 * depth) ' ')
  colon := ": "

mutual

def write (style : Style) (depth : Nat) : Json → String
  | .null => "null"
  | .bool true => "true"
  | .bool false => "false"
  | .int value => toString value
  | .real => "0.0"
  | .str text => quote text
  | .arr [] => "[]"
  | .arr items => "[" ++ writeItems style (depth + 1) items ++ style.line depth ++ "]"
  | .obj [] => "\x7b\x7d"
  | .obj members =>
      "\x7b" ++ writeMembers style (depth + 1) members ++ style.line depth ++ "\x7d"

def writeItems (style : Style) (depth : Nat) : List Json → String
  | [] => ""
  | [item] => style.line depth ++ item.write style depth
  | item :: rest =>
      style.line depth ++ item.write style depth ++ "," ++ writeItems style depth rest

def writeMembers (style : Style) (depth : Nat) : List (Option String × Json) → String
  | [] => ""
  | [(key, value)] => style.line depth ++ quote key ++ style.colon ++ value.write style depth
  | (key, value) :: rest =>
      style.line depth ++ quote key ++ style.colon ++ value.write style depth ++ "," ++
        writeMembers style depth rest

end

def compact (document : Json) : String := document.write .compact 0

def pretty (document : Json) : String := document.write .pretty 0

end Monolith.Json

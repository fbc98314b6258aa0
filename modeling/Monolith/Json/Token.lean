import Monolith.Json.Basic

/-! # Tokens of JSON text

The text is cut into punctuation, words, numbers and string literals; blanks
separate tokens and are dropped. A string literal is first read as characters
and escaped 16-bit units, and the units are then paired up.
-/

namespace Monolith.Json

inductive Token where
  | beginArray
  | endArray
  | beginObject
  | endObject
  | comma
  | colon
  | null
  | bool (value : Bool)
  | int (value : Int)
  | real
  | str (text : Option String)
  deriving DecidableEq, Repr

namespace Token

def isBlank (c : Char) : Bool := c == ' ' || c == '\n' || c == '\t' || c == '\r'

def hexDigit? (c : Char) : Option Nat :=
  if '0' ≤ c ∧ c ≤ '9' then some (c.toNat - '0'.toNat)
  else if 'a' ≤ c ∧ c ≤ 'f' then some (c.toNat - 'a'.toNat + 10)
  else if 'A' ≤ c ∧ c ≤ 'F' then some (c.toNat - 'A'.toNat + 10)
  else none

def hexUnit? (a b c d : Char) : Option Nat := do
  return (((← hexDigit? a) * 16 + (← hexDigit? b)) * 16 + (← hexDigit? c)) * 16 + (← hexDigit? d)

/-- The character that a one-letter escape stands for. -/
def escaped? : Char → Option Char
  | '"' => some '"'
  | '\\' => some '\\'
  | '/' => some '/'
  | 'b' => some '\x08'
  | 'f' => some '\x0c'
  | 'n' => some '\n'
  | 'r' => some '\r'
  | 't' => some '\t'
  | _ => none

/-- A piece of a string literal: a character, or a 16-bit unit given by its number. -/
inductive Piece where
  | char (value : Char)
  | unit (code : Nat)
  deriving DecidableEq, Repr

/-- The pieces up to the closing quote, and the text after it. Characters below
the blank have to be escaped. -/
def pieces : List Char → Option (List Piece × List Char)
  | [] => none
  | '"' :: rest => some ([], rest)
  | '\\' :: 'u' :: a :: b :: c :: d :: rest => do
      let unit ← hexUnit? a b c d
      let (tail, rest) ← pieces rest
      return (.unit unit :: tail, rest)
  | '\\' :: c :: rest => do
      let c ← escaped? c
      let (tail, rest) ← pieces rest
      return (.char c :: tail, rest)
  | c :: rest =>
      if c.toNat < 0x20 then none
      else do
        let (tail, rest) ← pieces rest
        return (.char c :: tail, rest)

def isHighSurrogate (code : Nat) : Bool := 0xD800 ≤ code && code ≤ 0xDBFF

def isLowSurrogate (code : Nat) : Bool := 0xDC00 ≤ code && code ≤ 0xDFFF

/-- The characters that the pieces denote, if every surrogate unit is half of a
pair of adjacent units. -/
def characters? : List Piece → Option (List Char)
  | [] => some []
  | .char c :: rest => (characters? rest).map (c :: ·)
  | .unit high :: .unit low :: rest =>
      if isHighSurrogate high && isLowSurrogate low then
        (characters? rest).map
          (Char.ofNat (0x10000 + (high - 0xD800) * 0x400 + (low - 0xDC00)) :: ·)
      else if isHighSurrogate high || isLowSurrogate high then none
      else (characters? (.unit low :: rest)).map (Char.ofNat high :: ·)
  | .unit code :: rest =>
      if isHighSurrogate code || isLowSurrogate code then none
      else (characters? rest).map (Char.ofNat code :: ·)

/-- A string literal whose opening quote has been read. -/
def literal? (cs : List Char) : Option (Token × List Char) := do
  let (parts, rest) ← pieces cs
  return (.str ((characters? parts).map String.ofList), rest)

def decimalValue (digits : List Char) : Nat :=
  digits.foldl (fun value c => value * 10 + (c.toNat - '0'.toNat)) 0

/-- The integer part of a number: one zero, or digits that start with no zero. -/
def integerPart? (cs : List Char) : Option (Nat × List Char) :=
  match cs.takeWhile Char.isDigit with
  | [] => none
  | '0' :: _ :: _ => none
  | digits => some (decimalValue digits, cs.dropWhile Char.isDigit)

/-- Drops the digits that have to follow, at least one. -/
def skipDigits? (cs : List Char) : Option (List Char) :=
  if (cs.takeWhile Char.isDigit).isEmpty then none else some (cs.dropWhile Char.isDigit)

/-- Drops a fraction, if there is one, and says whether there was. -/
def skipFraction? : List Char → Option (Bool × List Char)
  | '.' :: rest => (skipDigits? rest).map (true, ·)
  | cs => some (false, cs)

def skipSign : List Char → List Char
  | '+' :: rest => rest
  | '-' :: rest => rest
  | cs => cs

/-- Drops an exponent, if there is one, and says whether there was. -/
def skipExponent? : List Char → Option (Bool × List Char)
  | 'e' :: rest => (skipDigits? (skipSign rest)).map (true, ·)
  | 'E' :: rest => (skipDigits? (skipSign rest)).map (true, ·)
  | cs => some (false, cs)

def unsigned? (negative : Bool) (cs : List Char) : Option (Token × List Char) := do
  let (value, rest) ← integerPart? cs
  let (fraction, rest) ← skipFraction? rest
  let (exponent, rest) ← skipExponent? rest
  if fraction || exponent || (negative && value == 0) then return (.real, rest)
  else if negative then return (.int (-(value : Int)), rest)
  else return (.int value, rest)

def number? : List Char → Option (Token × List Char)
  | '-' :: rest => unsigned? true rest
  | cs => unsigned? false cs

/-- The token that the text starts with, and the text after it. -/
def first? : List Char → Option (Token × List Char)
  | '[' :: rest => some (.beginArray, rest)
  | ']' :: rest => some (.endArray, rest)
  | '\x7b' :: rest => some (.beginObject, rest)
  | '\x7d' :: rest => some (.endObject, rest)
  | ',' :: rest => some (.comma, rest)
  | ':' :: rest => some (.colon, rest)
  | 'n' :: 'u' :: 'l' :: 'l' :: rest => some (.null, rest)
  | 't' :: 'r' :: 'u' :: 'e' :: rest => some (.bool true, rest)
  | 'f' :: 'a' :: 'l' :: 's' :: 'e' :: rest => some (.bool false, rest)
  | '"' :: rest => literal? rest
  | cs => number? cs

/-- All tokens of the text. A token takes at least one character, so the length
of the text bounds their number. -/
def scan : Nat → List Char → Option (List Token)
  | _, [] => some []
  | 0, _ :: _ => none
  | bound + 1, c :: cs =>
      if isBlank c then scan bound cs
      else do
        let (token, rest) ← first? (c :: cs)
        return token :: (← scan bound rest)

end Token

def tokens? (text : String) : Option (List Token) :=
  let cs := text.toList
  Token.scan cs.length cs

end Monolith.Json

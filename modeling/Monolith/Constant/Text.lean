import Monolith.Constant.Basic
import Monolith.Ty.Text

/-! # Text of constants -/

namespace Monolith

def CastOp.text : CastOp → String
  | .trunc => "trunc"
  | .zext => "zext"
  | .sext => "sext"
  | .ptrToInt => "ptrtoint"
  | .intToPtr => "inttoptr"
  | .bitcast => "bitcast"

namespace Constant

def upperHexDigit (value : Nat) : Char :=
  if value < 10 then Char.ofNat ('0'.toNat + value) else Char.ofNat ('A'.toNat + (value - 10))

/-- A byte between the quotes of a byte string: itself if it is printable ASCII
other than the quote and the backslash, else a backslash and two digits. -/
def byteChars (byte : UInt8) : List Char :=
  let code := byte.toNat
  if 0x20 ≤ code ∧ code ≤ 0x7E ∧ code ≠ '"'.toNat ∧ code ≠ '\\'.toNat then [Char.ofNat code]
  else ['\\', upperHexDigit (code / 16), upperHexDigit (code % 16)]

def bytesText (data : List UInt8) : String :=
  "[" ++ toString data.length ++ " x i8] c\"" ++ String.ofList (data.flatMap byteChars) ++ "\""

def indicesText : List Int64 → String
  | [] => ""
  | index :: rest => ", i64 " ++ toString index.toInt ++ indicesText rest

mutual

def text : Constant → String
  | .int ty value => ty.text ++ " " ++ toString value.toInt
  | .null => "ptr null"
  | .undef ty => ty.text ++ " undef"
  | .poison ty => ty.text ++ " poison"
  | .bytes data => bytesText data
  | .aggregate ty elements =>
      if ty.isArray then ty.text ++ " [ " ++ listText elements ++ " ]"
      else ty.text ++ " \x7b " ++ listText elements ++ " \x7d"
  | .global id => "ptr @g" ++ toString id
  | .function id => "ptr @f" ++ toString id
  | .elementPtr source base indices =>
      "ptr getelementptr inbounds (" ++ source.text ++ ", " ++ base.text ++
        indicesText indices ++ ")"
  | .cast op value ty =>
      ty.text ++ " " ++ op.text ++ " (" ++ value.text ++ " to " ++ ty.text ++ ")"

def listText : List Constant → String
  | [] => ""
  | [c] => c.text
  | c :: rest => c.text ++ ", " ++ listText rest

end

end Constant

end Monolith

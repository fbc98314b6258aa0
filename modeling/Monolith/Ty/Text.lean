import Monolith.Ty.Basic

/-! # Text of types -/

namespace Monolith.Ty

mutual

def text : Ty → String
  | .void => "void"
  | .int bits => "i" ++ toString bits.toNat
  | .ptr => "ptr"
  | .array element len => "[" ++ toString len.toNat ++ " x " ++ element.text ++ "]"
  | .struct fields false => "\x7b " ++ listText fields ++ " \x7d"
  | .struct fields true => "<\x7b " ++ listText fields ++ " \x7d>"

def listText : List Ty → String
  | [] => ""
  | [t] => t.text
  | t :: rest => t.text ++ ", " ++ listText rest

end

end Monolith.Ty

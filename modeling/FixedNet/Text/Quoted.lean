import FixedNet.Text.DefaultIgnorable
import FixedNet.Text.ExtendingMark
import FixedNet.Text.Unprintable

namespace FixedNet.Text

/-- Whether a character has no form of its own inside a message. -/
def isUnseen (c : Char) : Bool := isUnprintable c || isExtendingMark c || isDefaultIgnorable c

def hexDigits (n : Nat) : String := String.ofList (Nat.toDigits 16 n)

def escapeChar (c : Char) : String :=
  match c with
  | '"' => "\\\""
  | '\\' => "\\\\"
  | '\n' => "\\n"
  | '\t' => "\\t"
  | '\r' => "\\r"
  | '\x00' => "\\0"
  | c => if isUnseen c then "\\u\x7b" ++ hexDigits c.toNat ++ "\x7d" else c.toString

def quoted (s : String) : String := "\"" ++ String.join (s.toList.map escapeChar) ++ "\""

def bracketed (items : List String) : String := "[" ++ String.intercalate ", " items ++ "]"

end FixedNet.Text

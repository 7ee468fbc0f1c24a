import FixedNet.Power

namespace FixedNet.Text

open scoped FixedNet.Power

def digitValue (c : Char) : Nat := c.toNat - '0'.toNat

/-- The number that a run of digits denotes; `none` for an empty run and for any other character. -/
def readDigits (cs : List Char) : Option Nat :=
  if cs.isEmpty || !cs.all Char.isDigit then none
  else some (cs.foldl (fun n c ↦ 10 * n + digitValue c) 0)

def readNat : List Char → Option Nat
  | '+' :: cs => readDigits cs
  | cs => readDigits cs

def readInt : List Char → Option Int
  | '-' :: cs => (readDigits cs).map fun n ↦ -n
  | '+' :: cs => (readDigits cs).map Int.ofNat
  | cs => (readDigits cs).map Int.ofNat

def readUnsigned (bits : Nat) (cs : List Char) : Option Nat :=
  (readNat cs).filter (· < 2 ^ bits)

def readSigned (bits : Nat) (cs : List Char) : Option Int :=
  (readInt cs).filter fun n ↦ -(2 ^ (bits - 1)) ≤ n && n < 2 ^ (bits - 1)

end FixedNet.Text

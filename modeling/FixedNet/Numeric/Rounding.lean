import FixedNet.Power
import FixedNet.Text.Blank
import FixedNet.Text.Split

namespace FixedNet

open scoped FixedNet.Power

inductive Rounding
  /-- Toward negative infinity. -/
  | down
  /-- To the nearest integer, a half away from zero. -/
  | nearest
  /-- To the nearest integer, a half to the even one. -/
  | nearestEven
  deriving DecidableEq, Inhabited

namespace Rounding

def name : Rounding → String
  | down => "TRN"
  | nearest => "RND"
  | nearestEven => "RND_CONV"

/-- The integer chosen for `n / 2 ^ k`. When `|n| < 2 ^ (k - 1)` the fraction lies strictly between `-1/2` and
`1/2`, and the power need not be computed. -/
def shiftRight (r : Rounding) (n : Int) (k : Nat) : Int :=
  if n.natAbs.log2 + 1 < k then
    match r with
    | down => if n < 0 then -1 else 0
    | nearest | nearestEven => 0
  else
    let floor := n / 2 ^ k
    match r, compare (2 * (n % 2 ^ k)) (2 ^ k) with
    | down, _ => floor
    | _, .lt => floor
    | _, .gt => floor + 1
    | nearest, .eq => if 0 ≤ n then floor + 1 else floor
    | nearestEven, .eq => if floor % 2 = 0 then floor else floor + 1

end Rounding

inductive Overflow
  /-- Reduction modulo the width, which drops the high bits. -/
  | wrap
  /-- The nearer end of the range. -/
  | saturate
  deriving DecidableEq, Inhabited

namespace Overflow

def name : Overflow → String
  | wrap => "WRAP"
  | saturate => "SAT"

end Overflow

/-- Mode names are read in either case, between blanks, with or without `AP_` in front. -/
def modeWord (text : String) : String :=
  let word := Text.upper (Text.trim text.toList)
  String.ofList ((Text.stripFront ['A', 'P', '_'] word).getD word)

def Rounding.read? (text : String) : Option Rounding :=
  match modeWord text with
  | "TRN" | "TRUNCATE" => some down
  | "RND" | "ROUND_NEAREST" => some nearest
  | "RND_CONV" | "ROUND_NEAREST_EVEN" => some nearestEven
  | _ => none

def Overflow.read? (text : String) : Option Overflow :=
  match modeWord text with
  | "WRAP" => some wrap
  | "SAT" | "SATURATE" => some saturate
  | _ => none

end FixedNet

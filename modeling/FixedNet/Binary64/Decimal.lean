import FixedNet.Binary64.Basic
import FixedNet.Text.Integer
import FixedNet.Text.Split

namespace FixedNet.Binary64

open scoped FixedNet.Power

open Float.Model (UnpackedFloat)
open Float.Model.UnpackedFloat (Sign)

structure Decimal where
  digits : Nat
  exponent : Int
  deriving DecidableEq

/-- The reals that round to `m * 2 ^ e`, as `low`, `mid` and `high` over the common denominator `den`; the number
itself is `mid`. The ends belong to the interval exactly when `m` is even. -/
structure Interval where
  low : Nat
  mid : Nat
  high : Nat
  den : Nat
  closed : Bool

def interval (m : Nat) (e : Int) : Interval where
  low := (4 * m - if m = 2 ^ (52 : Nat) ∧ -1074 < e then 1 else 2) * 2 ^ (e - 2).toNat
  mid := 4 * m * 2 ^ (e - 2).toNat
  high := (4 * m + 2) * 2 ^ (e - 2).toNat
  den := 2 ^ (2 - e).toNat
  closed := m % 2 = 0

namespace Interval

/-- Whether `d * 10 ^ k` lies in the interval. -/
def contains (i : Interval) (d : Nat) (k : Int) : Bool :=
  let point := d * 10 ^ k.toNat * i.den
  let unit := 10 ^ (-k).toNat
  if i.closed then i.low * unit ≤ point && point ≤ i.high * unit
  else i.low * unit < point && point < i.high * unit

/-- The point of the grid `10 ^ k` nearest to the number among its two neighbours there that lie in the interval;
a tie goes up. -/
def onGrid (i : Interval) (k : Int) : Option Decimal :=
  let step := 10 ^ k.toNat * i.den
  let mid := i.mid * 10 ^ (-k).toNat
  let d := mid / step
  let rest := mid % step
  match i.contains d k, i.contains (d + 1) k with
  | true, true => some ⟨if 2 * rest < step then d else d + 1, k⟩
  | true, false => some ⟨d, k⟩
  | false, true => some ⟨d + 1, k⟩
  | false, false => none

/-- The coarsest grid with a point in the interval gives the fewest digits. Grids from the first power of ten
above the interval down to eighteen digits below it suffice. -/
def shortest (i : Interval) : Decimal :=
  let top : Int := (Nat.toDigits 10 i.high).length - (Nat.toDigits 10 i.den).length + 1
  ((List.range 22).findSome? fun (j : Nat) ↦ i.onGrid (top - j)).getD ⟨0, 0⟩

end Interval

def Decimal.positional (d : Decimal) : List Char :=
  let digits := Nat.toDigits 10 d.digits
  if 0 ≤ d.exponent then digits ++ List.replicate d.exponent.toNat '0'
  else
    let places := (-d.exponent).toNat
    if places < digits.length then
      digits.take (digits.length - places) ++ '.' :: digits.drop (digits.length - places)
    else '0' :: '.' :: List.replicate (places - digits.length) '0' ++ digits

def signText : Sign → List Char
  | .negative => ['-']
  | .positive => []

def chars (x : Float) : List Char :=
  match parts x with
  | .notANumber => "NaN".toList
  | .infinity s => signText s ++ "inf".toList
  | .zero s => signText s ++ ['0']
  | .finite s m e _ => signText s ++ (interval m e).shortest.positional

def text (x : Float) : String := String.ofList (chars x)

def readExponent : List Char → Option Int
  | [] => some 0
  | c :: cs => if c = 'e' ∨ c = 'E' then Text.readInt cs else none

def Decimal.toFloat (d : Decimal) : Float :=
  Float.ofScientific d.digits (d.exponent < 0) d.exponent.natAbs

/-- A decimal without a sign: digits around at most one point, at least one of them, and perhaps an exponent. -/
def readDecimal (cs : List Char) : Option Decimal :=
  let whole := cs.takeWhile Char.isDigit
  let rest := cs.dropWhile Char.isDigit
  let fraction := if rest.head? = some '.' then rest.tail.takeWhile Char.isDigit else []
  let rest := if rest.head? = some '.' then rest.tail.dropWhile Char.isDigit else rest
  do
    let digits ← Text.readDigits (whole ++ fraction)
    let exponent ← readExponent rest
    return ⟨digits, exponent - fraction.length⟩

def readMagnitude (cs : List Char) : Option Float :=
  match String.ofList (Text.lower cs) with
  | "inf" | "infinity" => some (ofParts (.infinity .positive))
  | "nan" => some (ofParts .notANumber)
  | _ => (readDecimal cs).map Decimal.toFloat

def read? : List Char → Option Float
  | '-' :: cs => (readMagnitude cs).map Float.neg
  | '+' :: cs => readMagnitude cs
  | cs => readMagnitude cs

end FixedNet.Binary64

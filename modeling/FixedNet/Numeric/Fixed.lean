import FixedNet.Numeric.Format

namespace FixedNet

open scoped FixedNet.Power

structure Fixed where
  raw : Int
  frac : Int
  deriving DecidableEq

namespace Fixed

def zero : Fixed := ⟨0, 0⟩

def one : Fixed := ⟨1, 0⟩

def minusOne : Fixed := ⟨-1, 0⟩

instance : Inhabited Fixed := ⟨zero⟩

/-- From this magnitude on a scaled number lies outside every format. -/
def scaledLimit : Float := 1.0e38

/-- Rounds a number onto the grid of `f`, then brings it into the range. Numbers beyond the limit are multiples of
`2 ^ 74`: they saturate like `± 2 ^ 126`, and wrapping leaves nothing of them. -/
def ofFloat (f : Format) (x : Float) : Except NumericError Fixed :=
  if x.isFinite then
    let rounded := Binary64.roundWith f.rounding (x * Binary64.pow2 f.frac)
    if rounded.abs < scaledLimit then .ok ⟨f.wrapOrClamp (Binary64.toInt rounded), f.frac⟩
    else .ok ⟨f.narrowRaw (if rounded < 0 then -(2 ^ (126 : Nat)) else 2 ^ (126 : Nat)) f.frac, f.frac⟩
  else .error (.nonFinite x)

def toFloat (x : Fixed) : Float := Binary64.ofInt x.raw * Binary64.pow2 (-x.frac)

def text (x : Fixed) : String := Binary64.text x.toFloat

def isZero (x : Fixed) : Bool := x.raw = 0

def isNegative (x : Fixed) : Bool := x.raw < 0

def checked (operation : Operation) : Option Int → Except NumericError Int
  | some raw => .ok raw
  | none => .error (.overflow operation)

def mul (x y : Fixed) : Except NumericError Fixed := do
  let raw ← checked .multiplication (checkWord (x.raw * y.raw))
  return ⟨raw, x.frac + y.frac⟩

/-- The raw value on the finer grid `2 ^ -frac`. -/
def align (x : Fixed) (frac : Int) : Except NumericError Int :=
  checked .alignment (scaleUp x.raw (frac - x.frac).toNat)

def add (x y : Fixed) : Except NumericError Fixed := do
  let frac := max x.frac y.frac
  let a ← x.align frac
  let b ← y.align frac
  let raw ← checked .addition (checkWord (a + b))
  return ⟨raw, frac⟩

def neg (x : Fixed) : Except NumericError Fixed := do
  let raw ← checked .negation (checkWord (-x.raw))
  return ⟨raw, x.frac⟩

def sub (x y : Fixed) : Except NumericError Fixed := do
  let y ← y.neg
  x.add y

def narrow (f : Format) (x : Fixed) : Fixed := ⟨f.narrowRaw x.raw x.frac, f.frac⟩

/-- Takes a code `0` or `1` to the value `-1` or `1` it stands for. -/
def decodeBipolar (x : Fixed) : Except NumericError Fixed := do
  let doubled ← x.add x
  doubled.sub one

/-- The order of the values, by the sign of their difference; where that cannot be formed the numbers decide. -/
def compareValue (x y : Fixed) : Ordering :=
  match x.sub y with
  | .ok d => compare d.raw 0
  | .error _ => Binary64.totalCompare x.toFloat y.toFloat

end Fixed

namespace Format

variable (f : Format)

def minValue : Float := Fixed.toFloat ⟨f.rawMin, f.frac⟩

def maxValue : Float := Fixed.toFloat ⟨f.rawMax, f.frac⟩

/-- Whether a number is exactly one of the grid points in range. -/
def contains (x : Float) : Bool :=
  if !x.isFinite || x < f.minValue || f.maxValue < x then false
  else
    let scaled := x * Binary64.pow2 f.frac
    scaled == Binary64.trunc scaled

def quantize (x : Float) : Except NumericError Float := (Fixed.ofFloat f x).map Fixed.toFloat

end Format

end FixedNet

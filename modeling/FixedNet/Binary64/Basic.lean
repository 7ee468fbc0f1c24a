import FixedNet.Numeric.Rounding

namespace FixedNet.Binary64

open scoped FixedNet.Power

open Float.Model (UnpackedFloat)
open Float.Model.UnpackedFloat (Sign)

def parts (x : Float) : UnpackedFloat := x.toModel.unpack

def ofParts (u : UnpackedFloat) : Float := .ofModel (.pack u)

def ofInt (n : Int) : Float := .ofModel (.ofInt n)

/-- The number nearest to `2 ^ e`: zero below the smallest subnormal, infinite above the largest exponent. -/
def pow2 (e : Int) : Float :=
  if e < -1074 then ofParts (.zero .positive) else ofParts (UnpackedFloat.round .binary64 .positive 1 e)

/-- The integer a rounding mode picks; a zero keeps the sign of `x`, and what is not finite stays as it is. -/
def roundWith (r : Rounding) (x : Float) : Float :=
  match parts x with
  | .finite s m e _ =>
    if 0 ≤ e then x
    else
      let n := r.shiftRight (s.apply m) (-e).toNat
      if n = 0 then ofParts (.zero s) else ofInt n
  | _ => x

/-- Rounding toward zero, with the sign of `x` on a zero. -/
def trunc (x : Float) : Float :=
  match parts x with
  | .finite s m e _ =>
    if 0 ≤ e then x
    else
      let n := m / 2 ^ (-e).toNat
      if n = 0 then ofParts (.zero s) else ofInt (s.apply n)
  | _ => x

/-- The integer part, zero for what is not finite. -/
def toInt (x : Float) : Int :=
  match parts x with
  | .finite s m e _ => s.apply (if 0 ≤ e then m * 2 ^ e.toNat else m / 2 ^ (-e).toNat : Nat)
  | _ => 0

def toIndex (last : Nat) (x : Float) : Nat :=
  match parts x with
  | .infinity .positive => last
  | .finite .positive m e _ =>
    if e ≤ 64 then min last (if 0 ≤ e then m * 2 ^ e.toNat else m / 2 ^ (-e).toNat) else last
  | _ => 0

/-- The larger of two numbers, the other one if one of them is not a number. -/
def maxNum (x y : Float) : Float :=
  if x.isNaN then y else if y.isNaN then x else if x < y then y else x

/-- A place in a total order: what is not a number, the negative numbers by falling magnitude, the positive ones. -/
def orderKey (x : Float) : Int :=
  let bits := x.toBits.toNat
  if x.isNaN then -(2 ^ (63 : Nat))
  else if bits < 2 ^ (63 : Nat) then bits
  else 2 ^ (63 : Nat) - 1 - bits

def totalCompare (x y : Float) : Ordering := compare (orderKey x) (orderKey y)

end FixedNet.Binary64

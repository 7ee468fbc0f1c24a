import FixedNet.Numeric.Error

namespace FixedNet

open scoped FixedNet.Power

/-- An integer reduced to a two's complement word of 32 bits, the arithmetic of bit counts. -/
def word32 (n : Int) : Int := n.bmod (2 ^ (32 : Nat))

/-- `total` bits, `integer` of them above the binary point; a signed format counts its sign bit among these. -/
structure Format where
  total : Nat
  integer : Int
  signed : Bool
  rounding : Rounding := .down
  overflow : Overflow := .wrap
  total_bounds : 1 ≤ total ∧ total ≤ 64 := by decide
  integer_bounds : -64 ≤ integer ∧ integer ≤ 128 := by decide
  deriving DecidableEq

namespace Format

def make (total : Nat) (integer : Int) (signed : Bool) : Except NumericError Format :=
  if h : (1 ≤ total ∧ total ≤ 64) ∧ -64 ≤ integer ∧ integer ≤ 128 then
    .ok { total, integer, signed, total_bounds := h.1, integer_bounds := h.2 }
  else .error (.invalidWidth total integer)

def ofWidth (total : Nat) (signed : Bool) : Except NumericError Format := make total (word32 total) signed

def bit : Format := { total := 1, integer := 1, signed := false }

def trit : Format := { total := 2, integer := 2, signed := true }

instance : Inhabited Format where
  default := { total := 16, integer := 6, signed := true }

variable (f : Format)

def withRounding (r : Rounding) : Format := { f with rounding := r }

def withOverflow (o : Overflow) : Format := { f with overflow := o }

def frac : Int := f.total - f.integer

def rawMin : Int := if f.signed then -(2 ^ (f.total - 1)) else 0

def rawMax : Int := if f.signed then 2 ^ (f.total - 1) - 1 else 2 ^ f.total - 1

def step : Float := Binary64.pow2 (-f.frac)

def wrapOrClamp (raw : Int) : Int :=
  match f.overflow with
  | .saturate => if raw < f.rawMin then f.rawMin else if f.rawMax < raw then f.rawMax else raw
  | .wrap =>
    let low := raw % 2 ^ f.total
    if f.signed && 2 ^ (f.total - 1) ≤ low then low - 2 ^ f.total else low

end Format

/-- The raw values of exact arithmetic are words of 128 bits. -/
def FitsWord (n : Int) : Prop := -(2 ^ (127 : Nat)) ≤ n ∧ n < 2 ^ (127 : Nat)

instance (n : Int) : Decidable (FitsWord n) := inferInstanceAs (Decidable (_ ∧ _))

def checkWord (n : Int) : Option Int := if FitsWord n then some n else none

/-- `raw * 2 ^ shift` within the word. A shift by 127 or more is refused for every nonzero raw value. -/
def scaleUp (raw : Int) (shift : Nat) : Option Int :=
  if raw = 0 then some 0
  else if 127 ≤ shift then none
  else checkWord (raw * 2 ^ shift)

namespace Format

variable (f : Format)

/-- Narrows `raw * 2 ^ -frac` into the format: rounding first, then overflow. Where scaling up leaves the word a
saturating format takes the end of its range, and a wrapping one reduces before it shifts. -/
def narrowRaw (raw frac : Int) : Int :=
  if f.frac ≤ frac then f.wrapOrClamp (f.rounding.shiftRight raw (frac - f.frac).toNat)
  else
    let shift := (f.frac - frac).toNat
    match scaleUp raw shift, f.overflow with
    | some scaled, _ => f.wrapOrClamp scaled
    | none, .saturate => if raw < 0 then f.rawMin else f.rawMax
    | none, .wrap => if f.total ≤ shift then 0 else f.wrapOrClamp (f.wrapOrClamp raw * 2 ^ shift)

end Format

end FixedNet

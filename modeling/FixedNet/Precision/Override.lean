import FixedNet.Network.Slot

namespace FixedNet

/-- Unset fields keep the value of the format that is overridden. -/
@[ext]
structure Override where
  total : Option Nat := none
  integer : Option Int := none
  signed : Option Bool := none
  rounding : Option Rounding := none
  overflow : Option Overflow := none
  deriving DecidableEq

namespace Override

def whole (f : Format) : Override := ⟨f.total, f.integer, f.signed, f.rounding, f.overflow⟩

/-- The fields of `o`, where they are set, over those of `base`. -/
def merge (base o : Override) : Override :=
  ⟨o.total.or base.total, o.integer.or base.integer, o.signed.or base.signed, o.rounding.or base.rounding,
    o.overflow.or base.overflow⟩

def apply (o : Override) (base : Format) : Except NumericError Format := do
  let f ← Format.make (o.total.getD base.total) (o.integer.getD base.integer) (o.signed.getD base.signed)
  return (f.withRounding (o.rounding.getD base.rounding)).withOverflow (o.overflow.getD base.overflow)

/-- The format that the override names by itself, if it sets every field to a valid one. -/
def format? (o : Override) : Option Format := do
  let f ← (Format.make (← o.total) (← o.integer) (← o.signed)).toOption
  return (f.withRounding (← o.rounding)).withOverflow (← o.overflow)

end Override

/-- The overrides of the whole model, or of one layer. -/
@[ext]
structure Scope where
  overrides : SlotMap Override := {}
  tableSize : Option Nat := none
  deriving DecidableEq

namespace Scope

def isEmpty (s : Scope) : Bool := s.overrides.isEmpty && s.tableSize.isNone

def setFormat (s : Scope) (p : Slot) (f : Format) : Scope :=
  { s with overrides := s.overrides.set p (some (.whole f)) }

def setOverride (s : Scope) (p : Slot) (o : Override) : Scope := { s with overrides := s.overrides.set p (some o) }

def override (s : Scope) (p : Slot) : Override := (s.overrides.get p).getD {}

end Scope

end FixedNet

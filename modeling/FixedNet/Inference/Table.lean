import FixedNet.Numeric.Fixed

namespace FixedNet

/-- `exp d` for `d` in `[-range, 0]`, at evenly spaced points. -/
structure ExpTable where
  entries : Array Fixed
  range : Float

/-- `1 / s` for `s` in `(0, limit]`, at the points `limit * (j + 1) / size`. -/
structure InvTable where
  entries : Array Fixed
  limit : Float

def tableEntries (f : Format) (size : Nat) (sample : Nat → Float) : Except NumericError (Array Fixed) :=
  (Array.range size).mapM fun i ↦ Fixed.ofFloat (f.withOverflow .saturate) (sample i)

/-- The entry nearest to a position, the first or the last for positions outside the table. -/
def entryAt (entries : Array Fixed) (position : Float) : Fixed :=
  entries.getD (Binary64.toIndex (entries.size - 1) (Binary64.roundWith .nearest position)) Fixed.zero

namespace ExpTable

def samplePoint (size : Nat) (range : Float) (i : Nat) : Float :=
  if size ≤ 1 then 0 else -range + range * Binary64.ofInt i / Binary64.ofInt (size - 1 : Nat)

/-- Inputs with `integer` integer bits differ by less than `2 ^ integer`. -/
def make (size : Nat) (integer : Int) (f : Format) : Except NumericError ExpTable := do
  let range := Binary64.pow2 integer
  let entries ← tableEntries f size fun i ↦ (samplePoint size range i).exp
  return ⟨entries, range⟩

def lookup (t : ExpTable) (d : Fixed) : Fixed :=
  entryAt t.entries ((d.toFloat + t.range) / t.range * Binary64.ofInt (t.entries.size - 1 : Nat))

end ExpTable

namespace InvTable

def make (size : Nat) (limit : Float) (f : Format) : Except NumericError InvTable := do
  let entries ← tableEntries f size fun j ↦ Binary64.ofInt size / (limit * Binary64.ofInt (j + 1 : Nat))
  return ⟨entries, limit⟩

def lookup (t : InvTable) (s : Fixed) : Fixed :=
  entryAt t.entries (s.toFloat / t.limit * Binary64.ofInt t.entries.size - 1)

end InvTable

end FixedNet

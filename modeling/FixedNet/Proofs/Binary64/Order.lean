import FixedNet.Proofs.Binary64.Operations

namespace FixedNet.Binary64

open Float.Model (UnpackedFloat)
open Float.Model.UnpackedFloat (Sign)

/-- The infinities stand where the first number would that is too large. -/
def partsRank : UnpackedFloat → ℚ
  | .infinity s => signed s (2 ^ (1024 : ℤ))
  | u => partsValue u

def rank (x : Float) : ℚ := partsRank (parts x)

variable {x y : Float}

theorem rank_of_isFinite (hx : x.isFinite = true) : rank x = value x := by
  rw [isFinite_iff] at hx
  unfold rank value
  generalize parts x = u at hx
  cases u with
  | infinity | notANumber => cases hx
  | zero | finite => rfl

theorem rank_of_infinity {s : Sign} (hx : parts x = .infinity s) : rank x = signed s (2 ^ (1024 : ℤ)) := by
  rw [rank, hx]
  rfl

theorem infinity_or_isFinite (hx : x.isNaN = false) : (∃ s, parts x = .infinity s) ∨ x.isFinite = true := by
  have hnan : x.isNaN = (parts x).isNaN := rfl
  rw [hnan] at hx
  rw [isFinite_iff]
  generalize parts x = u at hx
  cases u with
  | infinity s => exact .inl ⟨s, rfl⟩
  | notANumber => cases hx
  | zero | finite => exact .inr rfl

theorem isNaN_of_isFinite (hx : x.isFinite = true) : x.isNaN = false := by
  rw [isFinite_iff] at hx
  change (parts x).isNaN = false
  generalize parts x = u at hx
  cases u with
  | infinity | notANumber => cases hx
  | zero | finite => rfl

theorem compare_infinity_left (s : Sign) (hy : y.isFinite = true) :
    (UnpackedFloat.infinity s).compare (parts y) = some (compare (signed s (2 ^ (1024 : ℤ))) (value y)) := by
  obtain ⟨hlo, hhi⟩ := abs_lt.mp (abs_value_lt y)
  rw [isFinite_iff] at hy
  generalize parts y = v at hy
  cases v with
  | infinity | notANumber => cases hy
  | zero | finite =>
    cases s with
    | negative => exact congrArg some (compare_lt_iff_lt.mpr hlo).symm
    | positive => exact congrArg some (compare_gt_iff_gt.mpr hhi).symm

theorem compare_infinity_right (s : Sign) (hx : x.isFinite = true) :
    (parts x).compare (.infinity s) = some (compare (value x) (signed s (2 ^ (1024 : ℤ)))) := by
  obtain ⟨hlo, hhi⟩ := abs_lt.mp (abs_value_lt x)
  rw [isFinite_iff] at hx
  generalize parts x = u at hx
  cases u with
  | infinity | notANumber => cases hx
  | zero | finite =>
    cases s with
    | negative => exact congrArg some (compare_gt_iff_gt.mpr hlo).symm
    | positive => exact congrArg some (compare_lt_iff_lt.mpr hhi).symm

theorem compare_infinities (s s' : Sign) : (UnpackedFloat.infinity s).compare (.infinity s') =
    some (compare (signed s (2 ^ (1024 : ℤ))) (signed s' (2 ^ (1024 : ℤ)))) := by
  have hlt : -(2 : ℚ) ^ (1024 : ℤ) < 2 ^ (1024 : ℤ) := neg_lt_self (two_zpow_pos _)
  cases s <;> cases s'
  · exact congrArg some (compare_eq_iff_eq.mpr rfl).symm
  · exact congrArg some (compare_lt_iff_lt.mpr hlt).symm
  · exact congrArg some (compare_gt_iff_gt.mpr hlt).symm
  · exact congrArg some (compare_eq_iff_eq.mpr rfl).symm

theorem compare_rank (hx : x.isNaN = false) (hy : y.isNaN = false) :
    (parts x).compare (parts y) = some (compare (rank x) (rank y)) := by
  rcases infinity_or_isFinite hx with ⟨s, hs⟩ | hfx
  · rw [rank_of_infinity hs, hs]
    rcases infinity_or_isFinite hy with ⟨s', hs'⟩ | hfy
    · rw [rank_of_infinity hs', hs', compare_infinities]
    · rw [rank_of_isFinite hfy, compare_infinity_left s hfy]
  · rw [rank_of_isFinite hfx]
    rcases infinity_or_isFinite hy with ⟨s', hs'⟩ | hfy
    · rw [rank_of_infinity hs', hs', compare_infinity_right s' hfx]
    · rw [rank_of_isFinite hfy, compare_eq hfx hfy]

theorem lt_iff_rank (hx : x.isNaN = false) (hy : y.isNaN = false) : x < y ↔ rank x < rank y := by
  rw [lt_iff_compare, compare_rank hx hy, ← compare_lt_iff_lt, Option.some_inj]

theorem le_iff_rank (hx : x.isNaN = false) (hy : y.isNaN = false) : x ≤ y ↔ rank x ≤ rank y := by
  rw [le_iff_compare, compare_rank hx hy, ← not_lt, ← compare_gt_iff_gt]
  cases compare (rank x) (rank y) <;> decide

theorem isNaN_of_compare {o : Ordering} (h : (parts x).compare (parts y) = some o) :
    x.isNaN = false ∧ y.isNaN = false := by
  change (parts x).isNaN = false ∧ (parts y).isNaN = false
  generalize parts x = u at h
  generalize parts y = v at h
  cases u with
  | notANumber => cases h
  | infinity | zero | finite =>
    cases v with
    | notANumber => cases h
    | infinity | zero | finite => exact ⟨rfl, rfl⟩

theorem isNaN_of_lt (h : x < y) : x.isNaN = false ∧ y.isNaN = false := isNaN_of_compare ((lt_iff_compare x y).mp h)

theorem isNaN_of_le (h : x ≤ y) : x.isNaN = false ∧ y.isNaN = false := by
  obtain ⟨o, ho, -⟩ := (Option.any_eq_true _ _).mp ((le_iff_compare x y).mp h)
  exact isNaN_of_compare ho

end FixedNet.Binary64

import FixedNet.Proofs.Numeric.Narrow

namespace FixedNet

namespace Format

variable (f : Format)

theorem reduce_mono (h : f.overflow = .saturate) {m n : ℤ} (hmn : m ≤ n) : f.reduce m ≤ f.reduce n := by
  simp only [reduce, h]
  exact max_le_max_left f.rawMin (min_le_min_right f.rawMax hmn)

theorem rawOf_mono (h : f.overflow = .saturate) {p q : ℚ} (hpq : p ≤ q) : f.rawOf p ≤ f.rawOf q := by
  refine f.reduce_mono h (f.rounding.round_mono ?_)
  exact mul_le_mul_of_nonneg_right hpq (zpow_nonneg zero_le_two f.frac)

end Format

namespace Fixed

variable (f : Format)

theorem narrow_eq_self_iff (x : Fixed) : x.narrow f = x ↔ x.frac = f.frac ∧ f.InRange x.raw := by
  constructor
  · intro h
    rw [← h]
    exact ⟨x.narrow_frac f, x.narrow_inRange f⟩
  · rintro ⟨hfrac, hraw⟩
    obtain ⟨raw, frac⟩ := x
    obtain rfl : frac = f.frac := hfrac
    rw [narrow_eq]
    exact congrArg (Fixed.mk · f.frac) (f.rawOf_of_inRange hraw)

/-- In every mode narrowing leaves what it has narrowed, and just the values of the format besides; under saturation it
keeps the order, on whatever scales the two values stand. -/
theorem narrow_idempotent_monotone :
    (∀ x : Fixed, (x.narrow f).narrow f = x.narrow f) ∧
    (∀ x : Fixed, x.narrow f = x ↔ x.frac = f.frac ∧ f.InRange x.raw) ∧
    (f.overflow = .saturate → ∀ x y : Fixed, (x.raw : ℚ) * 2 ^ (-x.frac) ≤ y.raw * 2 ^ (-y.frac) →
      (x.narrow f).raw ≤ (y.narrow f).raw) := by
  refine ⟨fun x ↦ ?_, narrow_eq_self_iff f, fun h x y hxy ↦ ?_⟩
  · exact (narrow_eq_self_iff f (x.narrow f)).mpr ⟨x.narrow_frac f, x.narrow_inRange f⟩
  · rw [narrow_raw, narrow_raw]
    exact f.rawOf_mono h hxy

/-- A tie is shifted right, and the other value leaves the word when it is scaled up. -/
theorem narrow_idempotent_monotone_apart :
    scaleUp (2 ^ 120) 20 = none ∧ ((5 : ℤ) : ℚ) * 2 ^ (-11 : ℤ) ≤ ((2 ^ 120 : ℤ) : ℚ) * 2 ^ (-(-10) : ℤ) ∧
      (Fixed.narrow (((default : Format).withRounding .nearestEven).withOverflow .saturate) ⟨5, 11⟩).raw ≤
        (Fixed.narrow (((default : Format).withRounding .nearestEven).withOverflow .saturate) ⟨2 ^ 120, -10⟩).raw := by
  have hle : ((5 : ℤ) : ℚ) * 2 ^ (-11 : ℤ) ≤ ((2 ^ 120 : ℤ) : ℚ) * 2 ^ (-(-10) : ℤ) := by norm_num
  have hmono := (narrow_idempotent_monotone (((default : Format).withRounding .nearestEven).withOverflow .saturate)).2.2
  exact ⟨by decide, hle, hmono rfl ⟨5, 11⟩ ⟨2 ^ 120, -10⟩ hle⟩

end Fixed

end FixedNet

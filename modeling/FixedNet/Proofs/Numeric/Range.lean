import FixedNet.Proofs.Numeric.Sample

namespace FixedNet

open Binary64 (nearest)

namespace Binary64

theorem pow2_sub_one {m : ℕ} (h : 54 ≤ m) (h' : m ≤ 64) : pow2 m - 1 = pow2 m := by
  interval_cases m <;> decide +kernel

theorem neg_pow2_add_one {m : ℕ} (h : 54 ≤ m) (h' : m ≤ 64) : -pow2 m + 1 = -pow2 m := by
  interval_cases m <;> decide +kernel

theorem nearest_two_pow_sub_one {m : ℕ} (h : 54 ≤ m) (h' : m ≤ 64) : nearest (2 ^ m - 1) = 2 ^ m := by
  obtain ⟨hfinite, hvalue⟩ := pow2_exact (e := m) (by omega) (by omega)
  rw [zpow_natCast] at hvalue
  have hone : (1 : ℚ) ≤ 2 ^ m := one_le_pow₀ (by norm_num)
  have hle : |(2 : ℚ) ^ m - 1| ≤ 2 ^ (1000 : ℤ) := by
    rw [abs_of_nonneg (by linarith)]
    calc (2 : ℚ) ^ m - 1 ≤ 2 ^ (m : ℤ) := by rw [zpow_natCast]; linarith
      _ ≤ 2 ^ (1000 : ℤ) := zpow_le_zpow_right₀ one_le_two (by omega)
  have hnearest := isNearest_sub hfinite one_exact.1
  rw [hvalue, one_exact.2, pow2_sub_one h h'] at hnearest
  exact (hnearest.of_lt (Fixed.abs_nearest_lt hle)).2.symm.trans hvalue

theorem exists_nearest_intCast (n : ℤ) : ∃ m : ℤ, nearest n = m := by
  rcases le_or_gt |n| (2 ^ 53) with hn | hn
  · exact ⟨n, nearest_eq_self (e := 0) (by simp) hn (by norm_num)⟩
  · -- the last place is an integer
    have hcast : (2 : ℚ) ^ (53 : ℤ) ≤ |(n : ℚ)| := by exact_mod_cast hn.le
    have hlog := (zpow_le_iff ((two_zpow_pos 53).trans_le hcast)).mp hcast
    obtain ⟨k, hk⟩ : ∃ k : ℕ, lastPlace n = k := Int.eq_ofNat_of_zero_le (by rw [lastPlace]; omega)
    refine ⟨Rounding.nearestEven.round (n / 2 ^ lastPlace (n : ℚ)) * 2 ^ k, ?_⟩
    rw [nearest, hk, zpow_natCast]
    push_cast
    rfl

end Binary64

namespace Format

variable {f : Format}

/-- One more than the largest raw value wraps to the least. -/
theorem reduce_rawMax_add_one (h : f.overflow = .wrap) : f.reduce (f.rawMax + 1) = f.rawMin := by
  have hmod : f.rawMax + 1 ≡ f.rawMin [ZMOD 2 ^ f.total] := by
    rw [f.rawMax_eq, sub_add_cancel]
    exact Int.add_modEq_right
  rw [f.reduce_congr h hmod, f.reduce_of_inRange f.inRange_rawMin]

theorem exists_rawMax_eq (f : Format) : ∃ m : ℕ, m ≤ 64 ∧ f.rawMax + 1 = 2 ^ m := by
  have htotal := f.total_bounds
  unfold rawMax
  split
  · exact ⟨f.total - 1, by omega, by ring⟩
  · exact ⟨f.total, htotal.2, by ring⟩

theorem nearest_rawMin (f : Format) : nearest (f.rawMin : ℚ) = f.rawMin := by
  unfold rawMin
  split
  · push_cast
    rw [Binary64.nearest_neg, ← zpow_natCast, Binary64.nearest_zpow (by omega)]
  · simp

theorem nearest_rawMax_add_one (f : Format) : nearest ((f.rawMax + 1 : ℤ) : ℚ) = (f.rawMax + 1 : ℤ) := by
  obtain ⟨m, -, hm⟩ := f.exists_rawMax_eq
  rw [hm]
  push_cast
  rw [← zpow_natCast, Binary64.nearest_zpow (by omega)]

def roundedMax (f : Format) : ℤ := if 2 ^ 53 ≤ f.rawMax then f.rawMax + 1 else f.rawMax

theorem nearest_rawMax (f : Format) : nearest (f.rawMax : ℚ) = f.roundedMax := by
  unfold roundedMax
  split
  case isTrue hwide =>
    obtain ⟨m, hm, heq⟩ := f.exists_rawMax_eq
    have h54 : 54 ≤ m := by
      by_contra! hlt
      have hle : (2 : ℤ) ^ m ≤ 2 ^ 53 := pow_le_pow_right₀ (by norm_num) (by omega)
      omega
    have hmax : (f.rawMax : ℚ) = 2 ^ m - 1 := by
      rw [eq_sub_iff_add_eq]
      exact_mod_cast heq
    rw [hmax, Binary64.nearest_two_pow_sub_one h54 hm, heq]
    norm_cast
  case isFalse hnarrow =>
    have hnonneg := f.rawMax_nonneg
    exact Binary64.nearest_eq_self (n := f.rawMax) (e := 0) (by simp) (by rw [abs_of_nonneg hnonneg]; omega)
      (by norm_num)

theorem InRange.moderate {n : ℤ} (h : f.InRange n) : (Fixed.mk n f.frac).Moderate := by
  have hbounds := h.bounds
  have hfrac := f.frac_bounds
  exact .of_le (by rw [abs_le]; dsimp only; omega) (by dsimp only; omega) (by dsimp only; omega)

theorem InRange.toFloat_exact {n : ℤ} (h : f.InRange n) :
    (Fixed.mk n f.frac).toFloat.isFinite = true ∧
      Binary64.value (Fixed.mk n f.frac).toFloat = nearest n * 2 ^ (-f.frac) :=
  ⟨h.moderate.toFloat_exact.1, h.moderate.toFloat_exact.2.trans h.moderate.nearest_value⟩

theorem InRange.of_nearest {raw n : ℤ} (h : f.InRange raw) (hn : nearest raw = n) :
    f.rawMin ≤ n ∧ n ≤ f.rawMax + 1 := by
  constructor
  · have hmono := Binary64.nearest_mono (show (f.rawMin : ℚ) ≤ raw by exact_mod_cast h.1)
    rw [f.nearest_rawMin, hn] at hmono
    exact_mod_cast hmono
  · have hle : raw ≤ f.rawMax + 1 := h.2.trans (by omega)
    have hmono := Binary64.nearest_mono (show (raw : ℚ) ≤ (f.rawMax + 1 : ℤ) by exact_mod_cast hle)
    rw [f.nearest_rawMax_add_one, hn] at hmono
    exact_mod_cast hmono

theorem InRange.rawMax_ge_of_nearest {raw : ℤ} (h : f.InRange raw)
    (hn : nearest raw = (f.rawMax + 1 : ℤ)) : 2 ^ 53 ≤ f.rawMax := by
  have hmax := f.rawMax_nonneg
  by_contra hnarrow
  -- up to 53 bits nothing is rounded
  have hmono := Binary64.nearest_mono (show (raw : ℚ) ≤ f.rawMax by exact_mod_cast h.2)
  rw [hn, f.nearest_rawMax, roundedMax, if_neg hnarrow] at hmono
  have hle : f.rawMax + 1 ≤ f.rawMax := by exact_mod_cast hmono
  omega

end Format

end FixedNet

import FixedNet.Proofs.Binary64.Operations
import FixedNet.Proofs.Numeric.Arithmetic

namespace FixedNet

open Float.Model.UnpackedFloat (Sign)
open Binary64 (nearest two_zpow_pos)

theorem Format.frac_bounds (f : Format) : -127 ≤ f.frac ∧ f.frac ≤ 128 := by
  have ht := f.total_bounds
  have hi := f.integer_bounds
  unfold frac
  omega

namespace Fixed

/-- Far from the ends of binary64. -/
structure Moderate (x : Fixed) : Prop where
  raw_le : |(x.raw : ℚ)| ≤ 2 ^ (700 : ℤ)
  le_frac : -300 ≤ x.frac
  frac_le : x.frac ≤ 300

variable {x y : Fixed}

theorem abs_value (x : Fixed) : |x.value| = (|x.raw| : ℤ) * 2 ^ (-x.frac) := by
  rw [value, abs_mul, abs_of_pos (two_zpow_pos _), Int.cast_abs]

theorem le_log_raw (h0 : x.raw ≠ 0) : 0 ≤ Int.log 2 |(x.raw : ℚ)| := by
  have hraw : (1 : ℚ) ≤ |(x.raw : ℚ)| := by exact_mod_cast Int.one_le_abs h0
  rwa [← Binary64.zpow_le_iff (by linarith), zpow_zero]

theorem Moderate.abs_value_le (h : x.Moderate) : |x.value| ≤ 2 ^ (1000 : ℤ) := by
  have hfrac := h.le_frac
  have hpow : (2 : ℚ) ^ (-x.frac) ≤ 2 ^ (300 : ℤ) := zpow_le_zpow_right₀ one_le_two (by omega)
  rw [value, abs_mul, abs_of_pos (two_zpow_pos _)]
  calc |(x.raw : ℚ)| * 2 ^ (-x.frac) ≤ 2 ^ (700 : ℤ) * 2 ^ (300 : ℤ) :=
        mul_le_mul h.raw_le hpow (two_zpow_pos _).le (two_zpow_pos _).le
    _ = 2 ^ (1000 : ℤ) := by rw [← zpow_add₀ two_ne_zero]; norm_num

theorem Moderate.nearest_value (h : x.Moderate) : nearest x.value = nearest x.raw * 2 ^ (-x.frac) := by
  rcases eq_or_ne x.raw 0 with h0 | h0
  · simp [value, h0]
  · have hlog := le_log_raw h0
    have hfrac := h.frac_le
    exact Binary64.nearest_mul_zpow (by exact_mod_cast h0) (by omega) (by omega)

theorem abs_nearest_lt {q : ℚ} (h : |q| ≤ 2 ^ (1000 : ℤ)) : |nearest q| < 2 ^ (1024 : ℤ) := by
  rw [Binary64.abs_nearest]
  refine (Binary64.nearest_mono h).trans_lt ?_
  rw [Binary64.nearest_zpow (by norm_num)]
  exact zpow_lt_zpow_right₀ one_lt_two (by norm_num)

/-- The number for a value is the nearest one, although the raw value is rounded before it is scaled. -/
theorem Moderate.toFloat_exact (h : x.Moderate) :
    x.toFloat.isFinite = true ∧ Binary64.value x.toFloat = nearest x.value := by
  have hraw : |(x.raw : ℚ)| ≤ 2 ^ (1000 : ℤ) :=
    h.raw_le.trans (zpow_le_zpow_right₀ one_le_two (by norm_num))
  obtain ⟨hf, hv⟩ := (Binary64.isNearest_ofInt x.raw).of_lt (abs_nearest_lt hraw)
  have hle := h.le_frac
  have hge := h.frac_le
  obtain ⟨hpf, hpv⟩ := Binary64.pow2_exact (e := -x.frac) (by omega) (by omega)
  have hmul := Binary64.isNearest_mul hf hpf
  rw [hv, hpv, ← h.nearest_value] at hmul
  -- rounding what is rounded already changes nothing
  have hidem : nearest (nearest x.value) = nearest x.value := by
    rcases eq_or_ne x.raw 0 with h0 | h0
    · simp [value, h0]
    · have habs : (1 : ℚ) ≤ |nearest x.raw| := by
        have hone : (1 : ℚ) ≤ |(x.raw : ℚ)| := by exact_mod_cast Int.one_le_abs h0
        rw [Binary64.abs_nearest]
        calc (1 : ℚ) = nearest (2 ^ (0 : ℤ)) := by rw [Binary64.nearest_zpow (by norm_num), zpow_zero]
          _ ≤ nearest |(x.raw : ℚ)| := Binary64.nearest_mono (by rwa [zpow_zero])
      have hlog : 0 ≤ Int.log 2 |nearest x.raw| := by
        rwa [← Binary64.zpow_le_iff (by linarith), zpow_zero]
      have hne : nearest x.raw ≠ 0 := by
        intro h0
        rw [h0, abs_zero] at habs
        linarith
      rw [h.nearest_value, Binary64.nearest_mul_zpow hne (by omega) (by omega), ← hv, Binary64.nearest_value]
  refine hidem ▸ hmul.of_lt ?_
  rw [hidem]
  exact abs_nearest_lt h.abs_value_le

theorem Moderate.toFloat_ne_zero (h : x.Moderate) (h0 : x.raw ≠ 0) : Binary64.value x.toFloat ≠ 0 := by
  have hone : (1 : ℚ) ≤ (|x.raw| : ℤ) := by exact_mod_cast Int.one_le_abs h0
  have hfrac := h.frac_le
  have hle : (2 : ℚ) ^ (-1074 : ℤ) ≤ |x.value| := by
    rw [abs_value]
    calc (2 : ℚ) ^ (-1074 : ℤ) ≤ 2 ^ (-x.frac) := zpow_le_zpow_right₀ one_le_two (by omega)
      _ ≤ (|x.raw| : ℤ) * 2 ^ (-x.frac) := le_mul_of_one_le_left (two_zpow_pos _).le hone
  rw [h.toFloat_exact.2, ← abs_ne_zero, Binary64.abs_nearest]
  exact (Binary64.nearest_pos hle).ne'

theorem toFloat_lt_zero_iff (h : x.Moderate) : Binary64.value x.toFloat < 0 ↔ x.raw < 0 := by
  rw [h.toFloat_exact.2]
  constructor
  · intro hlt
    by_contra hge
    exact (Binary64.nearest_nonneg ((value_nonneg_iff x).mpr (not_lt.mp hge))).not_gt hlt
  · intro hlt
    have hle : nearest x.value ≤ 0 := by
      have := Binary64.nearest_mono ((value_neg_iff x).mpr hlt).le
      rwa [Binary64.nearest_zero] at this
    refine lt_of_le_of_ne hle ?_
    rw [← h.toFloat_exact.2]
    exact h.toFloat_ne_zero hlt.ne

theorem parts_pow2 {e : ℤ} (he : -1074 ≤ e) (he' : e ≤ 1023) :
    ∃ m e' hm, Binary64.parts (Binary64.pow2 e) = .finite .positive m e' hm :=
  Binary64.parts_of_value_pos ((Binary64.pow2_exact he he').2 ▸ two_zpow_pos e)

theorem Moderate.toFloat_of_raw_eq_zero (h : x.Moderate) (h0 : x.raw = 0) :
    Binary64.parts x.toFloat = .zero .positive := by
  have hle := h.le_frac
  have hge := h.frac_le
  obtain ⟨m, e, hm, hp⟩ := parts_pow2 (e := -x.frac) (by omega) (by omega)
  have hzero : Binary64.parts (Binary64.ofInt 0) = .zero .positive :=
    Binary64.parts_ofParts (u := .zero .positive) trivial
  rw [toFloat, h0]
  change Binary64.parts (Binary64.ofParts ((Binary64.parts (Binary64.ofInt 0)).mul .binary64
    (Binary64.parts (Binary64.pow2 (-x.frac))))) = _
  rw [hzero, hp]
  exact Binary64.parts_ofParts (u := .zero .positive) trivial

theorem toFloat_congr (hx : x.Moderate) (hy : y.Moderate) (h : x.value = y.value) : x.toFloat = y.toFloat := by
  by_cases h0 : x.raw = 0
  · have h0' : y.raw = 0 := by
      have hpos := two_zpow_pos (-y.frac)
      have hy0 : (y.raw : ℚ) * 2 ^ (-y.frac) = 0 := by
        change y.value = 0
        rw [← h, value, h0, Int.cast_zero, zero_mul]
      exact_mod_cast (mul_eq_zero_iff_right hpos.ne').mp hy0
    apply Binary64.parts_injective
    rw [hx.toFloat_of_raw_eq_zero h0, hy.toFloat_of_raw_eq_zero h0']
  · refine Binary64.eq_of_value_eq (hx.toFloat_ne_zero h0) ?_
    rw [hx.toFloat_exact.2, hy.toFloat_exact.2, h]

theorem Moderate.of_le (hraw : |x.raw| ≤ 2 ^ 128) (hle : -256 ≤ x.frac) (hge : x.frac ≤ 256) : x.Moderate := by
  have hcast : |(x.raw : ℚ)| ≤ 2 ^ (128 : ℤ) := by exact_mod_cast hraw
  exact ⟨hcast.trans (zpow_le_zpow_right₀ one_le_two (by norm_num)), by omega, by omega⟩

def ofValue (q : ℚ) : Fixed := ⟨q.num, q.den.log2⟩

theorem exists_den_eq (x : Fixed) : ∃ j : ℕ, x.value.den = 2 ^ j ∧ (j : ℤ) ≤ max x.frac 0 := by
  have hk : x.value = (x.raw * 2 ^ (-x.frac).toNat : ℤ) / (2 ^ x.frac.toNat : ℕ) := by
    have hpow : (2 : ℚ) ^ (-x.frac) = 2 ^ (-x.frac).toNat / 2 ^ x.frac.toNat := by
      rw [← zpow_natCast, ← zpow_natCast, ← zpow_sub₀ two_ne_zero]
      congr 1
      omega
    rw [value, hpow]
    push_cast
    ring
  have hdvd : x.value.den ∣ 2 ^ x.frac.toNat := by
    have h := Rat.den_dvd (x.raw * 2 ^ (-x.frac).toNat) (2 ^ x.frac.toNat)
    rw [Rat.divInt_eq_div] at h
    rw [hk]
    exact_mod_cast h
  obtain ⟨j, hj, hden⟩ := (Nat.dvd_prime_pow Nat.prime_two).mp hdvd
  exact ⟨j, hden, by omega⟩

@[simp]
theorem value_ofValue (x : Fixed) : (ofValue x.value).value = x.value := by
  obtain ⟨j, hden, -⟩ := x.exists_den_eq
  have h := Rat.num_div_den x.value
  rw [hden] at h
  rw [value, ofValue, hden, Nat.log2_two_pow, zpow_neg, zpow_natCast, ← div_eq_mul_inv]
  exact_mod_cast h

theorem moderate_ofValue (hraw : |x.raw| ≤ 2 ^ 128) (hle : -256 ≤ x.frac) (hge : x.frac ≤ 256) :
    (ofValue x.value).Moderate := by
  obtain ⟨j, hden, hj⟩ := x.exists_den_eq
  have hlog : ((x.value.den.log2 : ℕ) : ℤ) = j := by rw [hden, Nat.log2_two_pow]
  refine ⟨?_, by change -300 ≤ ((x.value.den.log2 : ℕ) : ℤ); omega, by change ((x.value.den.log2 : ℕ) : ℤ) ≤ 300; omega⟩
  have hnum : (x.value.num : ℚ) = x.value * x.value.den := (Rat.mul_den_eq_num x.value).symm
  have hcast : |(x.raw : ℚ)| ≤ 2 ^ (128 : ℤ) := by exact_mod_cast hraw
  have hpow : (2 : ℚ) ^ (-x.frac) ≤ 2 ^ (256 : ℤ) := zpow_le_zpow_right₀ one_le_two (by omega)
  have hj' : (2 : ℚ) ^ (j : ℤ) ≤ 2 ^ (256 : ℤ) := zpow_le_zpow_right₀ one_le_two (by omega)
  have hden' : (x.value.den : ℚ) ≤ 2 ^ (256 : ℤ) := by
    rw [hden]
    rw [zpow_natCast] at hj'
    exact_mod_cast hj'
  change |(x.value.num : ℚ)| ≤ _
  rw [hnum, abs_mul, value, abs_mul, abs_of_pos (two_zpow_pos _), Nat.abs_cast]
  calc |(x.raw : ℚ)| * 2 ^ (-x.frac) * x.value.den ≤ 2 ^ (128 : ℤ) * 2 ^ (256 : ℤ) * 2 ^ (256 : ℤ) :=
        mul_le_mul (mul_le_mul hcast hpow (two_zpow_pos _).le (two_zpow_pos _).le) hden' (by positivity) (by positivity)
    _ = 2 ^ (640 : ℤ) := by rw [← zpow_add₀ two_ne_zero, ← zpow_add₀ two_ne_zero]; norm_num
    _ ≤ 2 ^ (700 : ℤ) := zpow_le_zpow_right₀ one_le_two (by norm_num)

theorem toFloat_ofValue (hraw : |x.raw| ≤ 2 ^ 128) (hle : -256 ≤ x.frac) (hge : x.frac ≤ 256) :
    (ofValue x.value).toFloat = x.toFloat :=
  toFloat_congr (moderate_ofValue hraw hle hge) (.of_le hraw hle hge) (value_ofValue x)

end Fixed

end FixedNet

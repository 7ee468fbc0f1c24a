import FixedNet.Proofs.Binary64.Integral
import FixedNet.Proofs.Numeric.Number

namespace FixedNet

open Float.Model.UnpackedFloat (Sign)
open Binary64 (nearest two_zpow_pos parts value)

namespace Binary64

theorem exists_eq_mul_of_le {x : Float} (h : 2 ^ (126 : ℤ) ≤ |value x|) : ∃ k : ℤ, value x = (k * 2 ^ 64 : ℤ) := by
  have hne : value x ≠ 0 := by
    intro h0
    rw [h0, abs_zero] at h
    exact h.not_gt (two_zpow_pos _)
  obtain ⟨s, m, e, hm, hp, hreduced, -⟩ := parts_of_value_ne_zero hne
  rw [value_of_parts hp] at h ⊢
  rw [abs_signed, abs_of_pos (finite_pos hm e)] at h
  have he : (126 : ℤ) < e + 53 := (zpow_lt_zpow_iff_right₀ one_lt_two).mp (h.trans_lt hreduced.mul_lt)
  obtain ⟨j, hj⟩ := Int.eq_ofNat_of_zero_le (a := e - 64) (by omega)
  refine ⟨s.apply m * 2 ^ j, ?_⟩
  have hpow : (2 : ℚ) ^ e = 2 ^ j * 2 ^ 64 := by
    rw [show e = j + (64 : ℕ) by push_cast; omega, zpow_add₀ two_ne_zero, zpow_natCast, zpow_natCast]
  rw [hpow, Int.cast_mul, Int.cast_mul, signed_apply, signed_mul, signed_mul, mul_assoc]
  norm_num

theorem exists_nearest_eq_of_huge {q : ℚ} (hle : 2 ^ (1024 : ℤ) ≤ |nearest q|) :
    ∃ n : ℤ, nearest q = n ∧ (2 : ℤ) ^ 64 ∣ n := by
  have hlog : 1023 ≤ Int.log 2 |q| := by
    have h0 : q ≠ 0 := by
      rintro rfl
      rw [nearest_zero, abs_zero] at hle
      exact hle.not_gt (two_zpow_pos _)
    rw [← zpow_le_iff (abs_pos.mpr h0)]
    by_contra! hlt
    have hmono := nearest_mono hlt.le
    rw [← abs_nearest, nearest_zpow (by norm_num)] at hmono
    exact (hle.trans hmono).not_gt (zpow_lt_zpow_right₀ one_lt_two (by norm_num))
  have hplace : lastPlace q = Int.log 2 |q| - 52 := max_eq_left (by omega)
  obtain ⟨j, hj⟩ := Int.eq_ofNat_of_zero_le (a := lastPlace q - 64) (by omega)
  refine ⟨Rounding.nearestEven.round (q / 2 ^ lastPlace q) * 2 ^ j * 2 ^ 64, ?_, Dvd.intro_left _ rfl⟩
  have hpow : (2 : ℚ) ^ lastPlace q = 2 ^ j * 2 ^ 64 := by
    rw [show lastPlace q = j + (64 : ℕ) by push_cast; omega, zpow_add₀ two_ne_zero, zpow_natCast, zpow_natCast]
  rw [nearest, hpow]
  push_cast
  ring

theorem neg_iff_of_nearest_eq {q : ℚ} {n : ℤ} (hn : nearest q = n) (h0 : n ≠ 0) : q < 0 ↔ n < 0 := by
  constructor
  · intro hq
    have hle := nearest_mono hq.le
    rw [nearest_zero, hn] at hle
    have : n ≤ 0 := by exact_mod_cast hle
    omega
  · intro hlt
    by_contra! hq
    have hge := nearest_nonneg hq
    rw [hn] at hge
    have : 0 ≤ n := by exact_mod_cast hge
    omega

theorem parts_scaledLimit :
    parts Fixed.scaledLimit = .finite .positive 5293955920339377 74 (by norm_num) := by
  have h : Fixed.scaledLimit = ofParts (.finite .positive 5293955920339377 74 (by norm_num)) := by decide +kernel
  rw [h]
  exact parts_ofParts ⟨⟨by norm_num, by norm_num, .inl (by norm_num)⟩, by norm_num⟩

theorem isFinite_scaledLimit : Fixed.scaledLimit.isFinite = true := by
  rw [isFinite_iff, parts_scaledLimit]
  rfl

theorem le_value_scaledLimit : 2 ^ (126 : ℤ) ≤ value Fixed.scaledLimit := by
  rw [value_of_parts parts_scaledLimit, signed]
  norm_num

end Binary64

namespace Format

variable (f : Format)

def rawOfNumber (x : Float) : ℤ := f.reduce (f.rounding.round (nearest (value x * 2 ^ f.frac)))

/-- A number of the grid is brought into the range and nothing else. -/
theorem rawOfNumber_of_value {x : Float} {n : ℤ} (hvalue : (n : ℚ) * 2 ^ (-f.frac) = value x) :
    f.rawOfNumber x = f.reduce n := by
  have hscaled : value x * 2 ^ f.frac = n := by
    rw [← hvalue, mul_assoc, ← zpow_add₀ two_ne_zero, neg_add_cancel, zpow_zero, mul_one]
  have hexact : nearest (value x * 2 ^ f.frac) = n := by
    rcases eq_or_ne n 0 with rfl | h0
    · rw [hscaled, Int.cast_zero, Binary64.nearest_zero]
    · have hfrac := f.frac_bounds
      have hone : (1 : ℚ) ≤ |(n : ℚ)| := by exact_mod_cast Int.one_le_abs h0
      have hle : (2 : ℚ) ^ (-f.frac) ≤ |value x| := by
        rw [← hvalue, abs_mul, abs_of_pos (two_zpow_pos _)]
        exact le_mul_of_one_le_left (two_zpow_pos _).le hone
      have hne : value x ≠ 0 := abs_pos.mp ((two_zpow_pos _).trans_le hle)
      have hlog := (Binary64.zpow_le_iff (abs_pos.mpr hne)).mp hle
      rw [Binary64.nearest_mul_zpow hne (by omega) (by omega), Binary64.nearest_value, hscaled]
  rw [rawOfNumber, hexact, Rounding.round_intCast]

/-- Numbers of the grid within the range are kept, and no others. -/
theorem value_rawOfNumber_iff (x : Float) :
    (Fixed.mk (f.rawOfNumber x) f.frac).value = value x ↔ f.Represents (value x) := by
  constructor
  · intro h
    exact ⟨f.rawOfNumber x, f.reduce_inRange _, h⟩
  · rintro ⟨n, hn, hvalue⟩
    rw [Fixed.value, f.rawOfNumber_of_value hvalue, f.reduce_of_inRange hn]
    exact hvalue

theorem represents_iff_inRange {n : ℤ} : f.Represents (n * 2 ^ (-f.frac)) ↔ f.InRange n := by
  constructor
  · rintro ⟨m, hm, heq⟩
    rwa [← Int.cast_inj.mp (mul_right_cancel₀ (two_zpow_pos (-f.frac)).ne' heq)]
  · intro h
    exact ⟨n, h, rfl⟩

theorem reduce_of_far {n : ℤ} (hn : 2 ^ 126 ≤ |n|) (hd : (2 : ℤ) ^ 64 ∣ n) :
    f.reduce n = f.reduce (if n < 0 then -(2 ^ 126) else 2 ^ 126) := by
  have hmin := f.neg_word_le_rawMin
  have hmax := f.rawMax_lt_word
  cases ho : f.overflow with
  | saturate =>
    rcases lt_or_ge n 0 with h | h
    · rw [abs_of_neg h] at hn
      rw [if_pos h, f.reduce_of_le ho (by omega), f.reduce_of_le ho (by omega)]
    · rw [abs_of_nonneg h] at hn
      rw [if_neg h.not_gt, f.reduce_of_ge ho (by omega), f.reduce_of_ge ho (by omega)]
  | wrap =>
    have hpow : (2 : ℤ) ^ f.total ∣ 2 ^ 64 := pow_dvd_pow 2 f.total_bounds.2
    have hd' : (2 : ℤ) ^ f.total ∣ if n < 0 then -(2 ^ 126) else 2 ^ 126 := by
      have h126 : (2 : ℤ) ^ f.total ∣ 2 ^ 126 := hpow.trans (pow_dvd_pow 2 (by norm_num))
      split
      · exact h126.neg_right
      · exact h126
    refine f.reduce_congr ho ?_
    exact (Int.modEq_zero_iff_dvd.mpr (hpow.trans hd)).trans (Int.modEq_zero_iff_dvd.mpr hd').symm

theorem narrowRaw_frac (n : ℤ) : f.narrowRaw n f.frac = f.reduce n := by
  rw [f.narrowRaw_eq, f.rawOf_eq_of_le_frac le_rfl]
  simp

end Format

namespace Fixed

theorem ofFloat_error {f : Format} {x : Float} (h : x.isFinite = false) : ofFloat f x = .error (.nonFinite x) := by
  rw [ofFloat, h]
  rfl

theorem ofFloat_of_isFinite {f : Format} {x : Float} (hx : x.isFinite = true)
    (hs : (x * Binary64.pow2 f.frac).isFinite = true)
    (hv : Binary64.value (x * Binary64.pow2 f.frac) = nearest (Binary64.value x * 2 ^ f.frac)) :
    ofFloat f x = .ok ⟨f.rawOfNumber x, f.frac⟩ := by
  obtain ⟨hr, hrv⟩ := Binary64.roundWith_exact f.rounding hs
  rw [hv] at hrv
  rw [ofFloat, if_pos hx, Format.rawOfNumber]
  dsimp only
  generalize Binary64.roundWith f.rounding (x * Binary64.pow2 f.frac) = r at hr hrv
  generalize f.rounding.round (nearest (Binary64.value x * 2 ^ f.frac)) = n at hrv
  have habs := Binary64.isFinite_abs r
  split
  case isTrue => rw [Format.wrapOrClamp_eq, Binary64.toInt_eq hr hrv]
  case isFalse hlt =>
    rw [Binary64.lt_iff (habs.trans hr) Binary64.isFinite_scaledLimit, not_lt, Binary64.value_abs] at hlt
    have hfar := Binary64.le_value_scaledLimit.trans hlt
    have hn : 2 ^ 126 ≤ |n| := by
      rw [hrv] at hfar
      exact_mod_cast hfar
    obtain ⟨k, hk⟩ := Binary64.exists_eq_mul_of_le hfar
    have hd : (2 : ℤ) ^ 64 ∣ n := ⟨k, by rw [mul_comm]; exact_mod_cast hrv.symm.trans hk⟩
    have hneg : r < 0 ↔ n < 0 := by
      rw [Binary64.lt_iff hr Binary64.isFinite_zero, hrv, Binary64.value_zero]
      exact_mod_cast Iff.rfl
    rw [f.narrowRaw_frac, f.reduce_of_far hn hd]
    simp only [hneg]

theorem ofFloat_of_infinity {f : Format} {x : Float} (hx : x.isFinite = true)
    (hle : 2 ^ (1024 : ℤ) ≤ |nearest (Binary64.value x * 2 ^ f.frac)|)
    (hs : parts (x * Binary64.pow2 f.frac) =
      .infinity (if Binary64.value x * 2 ^ f.frac < 0 then .negative else .positive)) :
    ofFloat f x = .ok ⟨f.rawOfNumber x, f.frac⟩ := by
  have hinf : (x * Binary64.pow2 f.frac).isFinite = false := by
    change (parts _).isFinite = false
    rw [hs]
    rfl
  rw [ofFloat, if_pos hx, Binary64.roundWith_of_not_isFinite _ hinf, Format.rawOfNumber]
  dsimp only
  generalize x * Binary64.pow2 f.frac = r at hs
  generalize Binary64.value x * 2 ^ f.frac = q at hle hs
  obtain ⟨n, hn, hd⟩ := Binary64.exists_nearest_eq_of_huge hle
  have hfar : 2 ^ 126 ≤ |n| := by
    rw [hn] at hle
    have hcast : (2 : ℚ) ^ (126 : ℤ) ≤ |(n : ℚ)| := (zpow_le_zpow_right₀ one_le_two (by norm_num)).trans hle
    exact_mod_cast hcast
  have hn0 : n ≠ 0 := by
    rintro rfl
    norm_num at hfar
  have habs : parts r.abs = .infinity .positive := by rw [Binary64.parts_abs, hs]; rfl
  have hge : ¬ r.abs < scaledLimit := by
    rw [Binary64.lt_iff_of_infinity_left habs Binary64.isFinite_scaledLimit]
    exact Sign.noConfusion
  have hneg : r < 0 ↔ n < 0 := by
    rw [Binary64.lt_iff_of_infinity_left hs Binary64.isFinite_zero, ← Binary64.neg_iff_of_nearest_eq hn hn0]
    split <;> simp_all
  rw [if_neg hge, f.narrowRaw_frac, hn, Rounding.round_intCast, f.reduce_of_far hfar hd]
  simp only [hneg]

/-- Every finite number is taken in, however large. -/
theorem ofFloat_ok (f : Format) {x : Float} (hx : x.isFinite = true) :
    ofFloat f x = .ok ⟨f.rawOfNumber x, f.frac⟩ := by
  obtain ⟨hle, hge⟩ := f.frac_bounds
  obtain ⟨hpf, hpv⟩ := Binary64.pow2_exact (e := f.frac) (by omega) (by omega)
  have hmul := Binary64.isNearest_mul hx hpf
  rw [hpv] at hmul
  rcases lt_or_ge |nearest (Binary64.value x * 2 ^ f.frac)| (2 ^ (1024 : ℤ)) with h | h
  · exact ofFloat_of_isFinite hx (hmul.of_lt h).1 (hmul.of_lt h).2
  · exact ofFloat_of_infinity hx h (hmul.of_le h)

theorem ofFloat_eq_ok_iff {f : Format} {x : Float} {y : Fixed} :
    ofFloat f x = .ok y ↔ x.isFinite = true ∧ y = ⟨f.rawOfNumber x, f.frac⟩ := by
  cases hx : x.isFinite with
  | false => simp [ofFloat_error hx]
  | true => simp [ofFloat_ok f hx, eq_comm]

end Fixed

end FixedNet

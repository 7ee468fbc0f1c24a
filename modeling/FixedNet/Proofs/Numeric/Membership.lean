import FixedNet.Proofs.Numeric.Intake
import FixedNet.Proofs.Numeric.Range

namespace FixedNet

open Binary64 (nearest two_zpow_pos value)

theorem Binary64.mul_zpow_neg_le_iff {p q : ℚ} {k : ℤ} : p * 2 ^ (-k) ≤ q ↔ p ≤ q * 2 ^ k := by
  rw [zpow_neg, ← div_eq_mul_inv, div_le_iff₀ (two_zpow_pos k)]

theorem Binary64.le_mul_zpow_neg_iff {p q : ℚ} {k : ℤ} : q ≤ p * 2 ^ (-k) ↔ q * 2 ^ k ≤ p := by
  rw [zpow_neg, ← div_eq_mul_inv, le_div_iff₀ (two_zpow_pos k)]

theorem Binary64.mul_zpow_neg_eq_iff {p q : ℚ} {k : ℤ} : p * 2 ^ (-k) = q ↔ q * 2 ^ k = p := by
  rw [zpow_neg, ← div_eq_mul_inv, div_eq_iff (two_zpow_pos k).ne', eq_comm]

namespace Format

variable {f : Format} {x : Float}

theorem minValue_exact (f : Format) : f.minValue.isFinite = true ∧ value f.minValue = f.rawMin * 2 ^ (-f.frac) := by
  rw [← f.nearest_rawMin]
  exact f.inRange_rawMin.toFloat_exact

theorem maxValue_exact (f : Format) :
    f.maxValue.isFinite = true ∧ value f.maxValue = f.roundedMax * 2 ^ (-f.frac) := by
  rw [← f.nearest_rawMax]
  exact f.inRange_rawMax.toFloat_exact

theorem roundedMax_bounds (f : Format) : f.rawMax ≤ f.roundedMax ∧ f.roundedMax ≤ 2 ^ 64 := by
  have hmax := f.rawMax_lt_word
  unfold roundedMax
  split <;> omega

theorem scaled_exact (hx : x.isFinite = true) (hlo : f.rawMin ≤ value x * 2 ^ f.frac)
    (hhi : value x * 2 ^ f.frac ≤ f.roundedMax) : (x * Binary64.pow2 f.frac).isFinite = true ∧
      value (x * Binary64.pow2 f.frac) = nearest (value x * 2 ^ f.frac) := by
  obtain ⟨hfrac, hfrac'⟩ := f.frac_bounds
  obtain ⟨hpf, hpv⟩ := Binary64.pow2_exact (e := f.frac) (by omega) (by omega)
  have hmul := Binary64.isNearest_mul hx hpf
  rw [hpv] at hmul
  have hmin : (-(2 ^ 64) : ℚ) ≤ f.rawMin := by
    have hword := f.neg_word_le_rawMin
    exact_mod_cast show -(2 ^ 64) ≤ f.rawMin by omega
  have hmax : (f.roundedMax : ℚ) ≤ 2 ^ 64 := by exact_mod_cast f.roundedMax_bounds.2
  have habs : |value x * 2 ^ f.frac| ≤ 2 ^ (64 : ℤ) := abs_le.mpr ⟨by exact_mod_cast hmin.trans hlo, hhi.trans hmax⟩
  exact hmul.of_lt (Fixed.abs_nearest_lt (habs.trans (zpow_le_zpow_right₀ one_le_two (by norm_num))))

theorem contains_iff (f : Format) (x : Float) : f.contains x = true ↔
    x.isFinite = true ∧ (f.rawMin ≤ value x * 2 ^ f.frac ∧ value x * 2 ^ f.frac ≤ f.roundedMax) ∧
      ((∃ n : ℤ, value x * 2 ^ f.frac = n) ∨ nearest (value x * 2 ^ f.frac) = 0) := by
  obtain ⟨hminFinite, hminValue⟩ := f.minValue_exact
  obtain ⟨hmaxFinite, hmaxValue⟩ := f.maxValue_exact
  cases hx : x.isFinite with
  | false => simp [contains, hx]
  | true =>
    have hlow : x < f.minValue ↔ ¬ f.rawMin ≤ value x * 2 ^ f.frac := by
      rw [Binary64.lt_iff hx hminFinite, hminValue, ← Binary64.mul_zpow_neg_le_iff, not_le]
    have hhigh : f.maxValue < x ↔ ¬ value x * 2 ^ f.frac ≤ f.roundedMax := by
      rw [Binary64.lt_iff hmaxFinite hx, hmaxValue, ← Binary64.le_mul_zpow_neg_iff, not_le]
    by_cases hrange : f.rawMin ≤ value x * 2 ^ f.frac ∧ value x * 2 ^ f.frac ≤ f.roundedMax
    · obtain ⟨hfinite, hvalue⟩ := scaled_exact hx hrange.1 hrange.2
      simp only [contains, hx, hlow, hhigh, hrange.1, hrange.2]
      rw [← Binary64.exists_nearest_scaled_eq_intCast_iff, ← hvalue, ← Binary64.beq_trunc_iff hfinite]
      simp
    · have hout : x < f.minValue ∨ f.maxValue < x := by rwa [hlow, hhigh, ← not_and_or]
      simp [contains, hx, hrange, hout]

theorem represents_value_iff :
    f.Represents (value x) ↔ ∃ n : ℤ, f.InRange n ∧ value x * 2 ^ f.frac = n := by
  simp only [Represents, Binary64.mul_zpow_neg_eq_iff]

/-- A number in range that vanishes on the grid, and so looks like zero. -/
def Blurs (f : Format) (x : Float) : Prop :=
  f.Vanishes x ∧ f.rawMin ≤ value x * 2 ^ f.frac ∧ value x * 2 ^ f.frac ≤ f.rawMax

/-- The number one step above the largest value of a wide format, and so what that value is rounded to. -/
def Tops (f : Format) (x : Float) : Prop := 2 ^ 53 ≤ f.rawMax ∧ value x = (f.rawMax + 1) * 2 ^ (-f.frac)

theorem tops_iff : f.Tops x ↔ 2 ^ 53 ≤ f.rawMax ∧ value x * 2 ^ f.frac = (f.rawMax + 1 : ℤ) := by
  rw [Tops, eq_comm (a := value x), Binary64.mul_zpow_neg_eq_iff]
  push_cast
  rfl

theorem Blurs.not_represents (h : f.Blurs x) : ¬ f.Represents (value x) := by
  rw [represents_value_iff]
  rintro ⟨n, -, hn⟩
  have hsmall := h.1.abs_lt
  rw [hn] at hsmall
  have h0 : value x * 2 ^ f.frac = 0 := by rw [hn, Binary64.intCast_eq_zero_of_abs_lt_half hsmall, Int.cast_zero]
  exact h.1.1 ((mul_eq_zero_iff_right (two_zpow_pos f.frac).ne').mp h0)

theorem Blurs.not_tops (h : f.Blurs x) : ¬ f.Tops x := by
  intro htops
  have hle := h.2.2
  rw [(tops_iff.mp htops).2, Int.cast_le] at hle
  omega

theorem Tops.not_represents (h : f.Tops x) : ¬ f.Represents (value x) := by
  rw [represents_value_iff]
  rintro ⟨n, hn, heq⟩
  rw [(tops_iff.mp h).2, Int.cast_inj] at heq
  have hle := hn.2
  omega

theorem contains_iff_represents (f : Format) (x : Float) :
    f.contains x = true ↔ x.isFinite = true ∧ (f.Represents (value x) ∨ f.Blurs x ∨ f.Tops x) := by
  have hround := f.roundedMax_bounds.1
  have hcast : (f.rawMax : ℚ) ≤ f.roundedMax := by exact_mod_cast hround
  rw [contains_iff, represents_value_iff, tops_iff]
  refine and_congr_right fun _ ↦ ?_
  constructor
  · rintro ⟨⟨hlo, hhi⟩, ⟨n, hn⟩ | h0⟩
    · rw [hn, Int.cast_le] at hlo hhi
      by_cases hle : n ≤ f.rawMax
      · exact .inl ⟨n, ⟨hlo, hle⟩, hn⟩
      · unfold roundedMax at hhi
        split at hhi
        case isTrue hwide => exact .inr (.inr ⟨hwide, by rw [hn]; congr 1; omega⟩)
        case isFalse => exact absurd hhi hle
    · by_cases hx0 : value x = 0
      · exact .inl ⟨0, f.inRange_zero, by simp [hx0]⟩
      · have hvanishes : f.Vanishes x := vanishes_iff.mpr ⟨hx0, h0⟩
        refine .inr (.inl ⟨hvanishes, hlo, ?_⟩)
        -- where the bound is rounded up it is far above a number that vanishes
        unfold roundedMax at hhi
        split at hhi
        case isTrue hwide =>
          have hone : (1 : ℚ) ≤ f.rawMax := by exact_mod_cast (show (1 : ℤ) ≤ f.rawMax by omega)
          have hsmall := (abs_lt.mp hvanishes.abs_lt).2
          linarith
        case isFalse => exact hhi
  · rintro (⟨n, hn, heq⟩ | hblurs | ⟨hwide, heq⟩)
    · rw [heq]
      exact ⟨⟨by exact_mod_cast hn.1, by exact_mod_cast hn.2.trans hround⟩, .inl ⟨n, rfl⟩⟩
    · exact ⟨⟨hblurs.2.1, hblurs.2.2.trans hcast⟩, .inr (vanishes_iff.mp hblurs.1).2⟩
    · have hmin := f.rawMin_nonpos
      rw [heq, roundedMax, if_pos hwide]
      exact ⟨⟨by exact_mod_cast (show f.rawMin ≤ f.rawMax + 1 by omega), le_rfl⟩, .inl ⟨_, rfl⟩⟩

theorem contains_iff_of_frac_nonneg (hfrac : 0 ≤ f.frac) (hmax : f.rawMax < 2 ^ 53) :
    f.contains x = true ↔ x.isFinite = true ∧ f.Represents (value x) := by
  have hblurs : ¬ f.Blurs x := fun h ↦ hfrac.not_gt h.1.frac_neg
  have htops : ¬ f.Tops x := fun h ↦ hmax.not_ge h.1
  rw [contains_iff_represents, or_iff_left (not_or.mpr ⟨hblurs, htops⟩)]

theorem quantize_ok (f : Format) (hx : x.isFinite = true) :
    f.quantize x = .ok (Fixed.mk (f.rawOfNumber x) f.frac).toFloat := by
  rw [quantize, Fixed.ofFloat_ok f hx]
  rfl

theorem quantize_exact (f : Format) (hx : x.isFinite = true) :
    ∃ y, f.quantize x = .ok y ∧ y.isFinite = true ∧ value y = nearest (f.rawOfNumber x) * 2 ^ (-f.frac) :=
  ⟨_, f.quantize_ok hx, (f.reduce_inRange _).toFloat_exact⟩

theorem Tops.rawOfNumber_eq (h : f.Tops x) : f.rawOfNumber x = f.reduce (f.rawMax + 1) := by
  refine f.rawOfNumber_of_value (n := f.rawMax + 1) ?_
  rw [h.2]
  push_cast
  rfl

theorem value_quantize_iff (h : f.Represents (value x) ∨ f.Blurs x ∨ f.Tops x) :
    nearest (f.rawOfNumber x) * 2 ^ (-f.frac) = value x ↔
      f.Represents (value x) ∨ f.Tops x ∧ f.overflow = .saturate := by
  rcases h with h | h | h
  · refine iff_of_true ?_ (.inl h)
    have hkept := (f.value_rawOfNumber_iff x).mpr h
    have hraw : f.InRange (f.rawOfNumber x) := f.reduce_inRange _
    exact hraw.moderate.nearest_value.symm.trans (by rw [hkept, Binary64.nearest_value])
  · refine iff_of_false ?_ (not_or.mpr ⟨h.not_represents, fun ⟨htops, _⟩ ↦ h.not_tops htops⟩)
    rw [h.1.rawOfNumber_eq]
    simpa using h.1.1.symm
  · rw [h.rawOfNumber_eq, or_iff_right h.not_represents, and_iff_right h]
    cases ho : f.overflow with
    | saturate =>
      rw [f.reduce_of_ge ho (by omega), f.nearest_rawMax, roundedMax, if_pos h.1, h.2]
      simp
    | wrap =>
      have hmin := f.rawMin_nonpos
      have hmax := f.rawMax_nonneg
      rw [reduce_rawMax_add_one ho, f.nearest_rawMin, h.2]
      refine iff_of_false ?_ (by simp)
      intro heq
      have hraw := mul_right_cancel₀ (two_zpow_pos (-f.frac)).ne' heq
      have hraw' : f.rawMin = f.rawMax + 1 := by exact_mod_cast hraw
      omega

/-- Just the finite numbers that are values of the format are members, but for those that blur and those that top, which
are members without being values. A member that is a value is quantized to itself in every mode; of the others only one
that tops a format that saturates is. -/
theorem contains_follows_grid (f : Format) (x : Float) :
    (f.contains x = true ↔ x.isFinite = true ∧ (f.Represents (value x) ∨ f.Blurs x ∨ f.Tops x)) ∧
    (f.Blurs x ∨ f.Tops x → ¬ f.Represents (value x)) ∧
    (f.contains x = true → ∃ y, f.quantize x = .ok y ∧
      ((y == x) = true ↔ f.Represents (value x) ∨ f.Tops x ∧ f.overflow = .saturate) ∧
      ((y == x) = true → value x ≠ 0 → y = x)) := by
  refine ⟨f.contains_iff_represents x, ?_, ?_⟩
  · rintro (h | h)
    · exact h.not_represents
    · exact h.not_represents
  · intro h
    obtain ⟨hx, hmember⟩ := (f.contains_iff_represents x).mp h
    obtain ⟨y, hy, hfinite, hvalue⟩ := f.quantize_exact hx
    refine ⟨y, hy, ?_, ?_⟩
    · rw [Binary64.beq_iff hfinite hx, hvalue, value_quantize_iff hmember]
    · intro hsame h0
      rw [Binary64.beq_iff hfinite hx] at hsame
      exact Binary64.eq_of_value_eq (hsame ▸ h0) hsame

theorem contains_follows_grid_quarter : (default : Format).contains 0.25 = true ∧
    ∃ y, (default : Format).quantize 0.25 = .ok y ∧ (y == 0.25) = true := by
  have hcontains : (default : Format).contains 0.25 = true := by decide +kernel
  have hgrid : 0 ≤ (default : Format).frac ∧ (default : Format).rawMax < 2 ^ 53 := by decide
  obtain ⟨y, hy, hsame, -⟩ := (contains_follows_grid default 0.25).2.2 hcontains
  exact ⟨hcontains, y, hy, hsame.mpr (.inl ((contains_iff_of_frac_nonneg hgrid.1 hgrid.2).mp hcontains).2)⟩

def evenFormat : Format := { total := 60, integer := 61, signed := true }

theorem evenFormat_frac : evenFormat.frac = -1 := rfl

/-- The smallest number blurs and the number above the largest value tops. Both are members of the format, neither is
one of its values, and neither is quantized to itself. -/
theorem members_not_represented :
    (evenFormat.contains (Binary64.pow2 (-1074)) = true ∧ ¬ evenFormat.Represents (value (Binary64.pow2 (-1074))) ∧
      evenFormat.quantize (Binary64.pow2 (-1074)) = .ok 0) ∧
    evenFormat.contains (Binary64.pow2 60) = true ∧ ¬ evenFormat.Represents (value (Binary64.pow2 60)) ∧
      evenFormat.quantize (Binary64.pow2 60) = .ok (-Binary64.pow2 60) := by
  have hblurs : evenFormat.Blurs (Binary64.pow2 (-1074)) := by
    have hscaled : value (Binary64.pow2 (-1074)) * 2 ^ evenFormat.frac = 2 ^ (-1075 : ℤ) := by
      rw [(Binary64.pow2_exact (by norm_num) (by norm_num)).2, evenFormat_frac, ← zpow_add₀ two_ne_zero]
      norm_num
    have hpos := two_zpow_pos (-1075)
    have hvanishes : evenFormat.Vanishes (Binary64.pow2 (-1074)) := by
      refine ⟨left_ne_zero_of_mul (hscaled ▸ hpos.ne'), ?_⟩
      rw [hscaled, abs_of_pos hpos]
    have hmin : (evenFormat.rawMin : ℚ) ≤ 0 := by exact_mod_cast evenFormat.rawMin_nonpos
    have hmax : (1 : ℚ) ≤ evenFormat.rawMax := by exact_mod_cast show (1 : ℤ) ≤ evenFormat.rawMax by decide
    have hsmall := (abs_lt.mp hvanishes.abs_lt).2
    refine ⟨hvanishes, ?_, by linarith⟩
    rw [hscaled]
    exact hmin.trans hpos.le
  have htops : evenFormat.Tops (Binary64.pow2 60) := by
    refine ⟨by decide, ?_⟩
    rw [(Binary64.pow2_exact (by norm_num) (by norm_num)).2, evenFormat_frac]
    have hmax : evenFormat.rawMax + 1 = 2 ^ 59 := by decide
    have hcast : (evenFormat.rawMax : ℚ) + 1 = 2 ^ 59 := by exact_mod_cast hmax
    rw [hcast]
    norm_num
  refine ⟨⟨by decide +kernel, hblurs.not_represents, ?_⟩, by decide +kernel, htops.not_represents, ?_⟩
  · rw [quantize_ok _ (by decide +kernel), hblurs.1.rawOfNumber_eq]
    exact congrArg Except.ok (by decide +kernel)
  · rw [quantize_ok _ (by decide +kernel), htops.rawOfNumber_eq, reduce_rawMax_add_one rfl]
    exact congrArg Except.ok (by decide +kernel)

end Format

end FixedNet

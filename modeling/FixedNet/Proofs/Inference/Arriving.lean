import FixedNet.Proofs.Inference.Compiled
import FixedNet.Proofs.Precision.Width

namespace FixedNet

/-- Within the width of a format, and not too far out to be multiplied. -/
structure Format.Arrives (f : Format) (x : Fixed) : Prop where
  holds : (Width.ofFormat f).Holds x.value
  onGrid_or : x.OnGrid f ∨ |x.raw| ≤ 2 ^ 63

theorem Width.Holds.abs_le_zpow {w : Width} {q : ℚ} (h : w.Holds q) : |q| ≤ 2 ^ w.integer := by
  have hmagnitude : (2 : ℚ) ^ w.magnitude ≤ 2 ^ w.integer := by
    refine zpow_le_zpow_right₀ one_le_two ?_
    unfold magnitude
    split <;> omega
  have hpos := Binary64.two_zpow_pos w.magnitude
  have hlower := h.lower
  refine abs_le.mpr ⟨?_, h.upper.le.trans hmagnitude⟩
  split at hlower <;> linarith

namespace Format

variable {f : Format}

theorem frac_of_represents_one (h : f.Represents 1) : 0 ≤ f.frac ∧ f.frac ≤ 63 := by
  obtain ⟨n, hn, hone⟩ := h
  have hn' : (n : ℚ) = 2 ^ f.frac := by
    rw [zpow_neg, ← div_eq_mul_inv, div_eq_one_iff_eq (by positivity)] at hone
    exact hone
  have hlt : (2 : ℚ) ^ f.frac < 2 ^ (64 : ℤ) := by
    rw [← hn']
    exact_mod_cast hn.bounds.2
  have hpos : (0 : ℚ) < n := by
    rw [hn']
    positivity
  have hle : (2 : ℚ) ^ (0 : ℤ) ≤ 2 ^ f.frac := by
    rw [← hn', zpow_zero]
    exact_mod_cast Int.add_one_le_of_lt (Int.cast_pos.mp hpos)
  have h₀ := (zpow_le_zpow_iff_right₀ one_lt_two).mp hle
  have h₁ := (zpow_lt_zpow_iff_right₀ one_lt_two).mp hlt
  omega

theorem arrives_of_onGrid {x : Fixed} (h : x.OnGrid f) : f.Arrives x := ⟨Width.holds_of_onGrid h, .inl h⟩

theorem trit_holds {q : ℚ} (h : q = -1 ∨ q = 1) : (Width.ofFormat .trit).Holds q := by
  have hfrac : (Width.ofFormat .trit).frac = 0 := rfl
  have hmagnitude : (Width.ofFormat .trit).magnitude = 1 := rfl
  have hsigned : (Width.ofFormat .trit).signed = true := rfl
  refine ⟨?_, ?_, ?_⟩
  · rw [hfrac]
    rcases h with rfl | rfl
    · exact ⟨-1, by simp⟩
    · exact ⟨1, by simp⟩
  · rw [hsigned, hmagnitude, if_pos rfl]
    rcases h with rfl | rfl <;> norm_num
  · rw [hmagnitude]
    rcases h with rfl | rfl <;> norm_num

theorem arrives_decoded {y : Fixed} (hone : f.Represents 1) (hfrac : y.frac = f.frac)
    (hcode : y.value = 0 ∨ y.value = 1) : trit.Arrives y.decoded := by
  have hvalue : y.decoded.value = -1 ∨ y.decoded.value = 1 := by
    rw [y.value_decoded]
    rcases hcode with h | h <;> rw [h]
    · exact .inl (by norm_num)
    · exact .inr (by norm_num)
  refine ⟨trit_holds hvalue, .inr ?_⟩
  obtain ⟨h₀, h₁⟩ := frac_of_represents_one hone
  have hf : y.decoded.frac = f.frac := by rw [y.decoded_frac, hfrac, max_eq_left h₀]
  have habs : |y.decoded.value| = 1 := by rcases hvalue with h | h <;> rw [h] <;> norm_num
  rw [Fixed.abs_value, hf, zpow_neg, ← div_eq_mul_inv, div_eq_one_iff_eq (by positivity)] at habs
  have hle : ((|y.decoded.raw| : ℤ) : ℚ) ≤ 2 ^ (63 : ℤ) := by
    rw [habs]
    exact zpow_le_zpow_right₀ one_le_two h₁
  exact_mod_cast hle

theorem IsWeight.arrives {encoding : Encoding} {w : Fixed} (h : f.IsWeight encoding w)
    (hcodes : encoding = .xnor → f.Represents 0 ∧ f.Represents 1) : (f.decoded encoding).Arrives w := by
  cases encoding with
  | direct => exact arrives_of_onGrid h
  | xnor =>
    obtain ⟨c, hc, rfl⟩ := h
    obtain ⟨h₀, h₁⟩ := hcodes rfl
    refine arrives_decoded h₁ rfl ?_
    rcases hc with rfl | rfl
    · rw [(f.value_rawOfNumber_iff 0).mpr (by rwa [Binary64.value_zero])]
      exact .inl Binary64.value_zero
    · rw [(f.value_rawOfNumber_iff 1).mpr (by rwa [Binary64.one_exact.2])]
      exact .inr Binary64.one_exact.2

variable {f' : Format} {x y : Fixed}

theorem Arrives.abs_raw_lt (h : f.Arrives x) : |x.raw| < 2 ^ 64 := by
  rcases h.onGrid_or with h | h
  · have hbounds := h.inRange.bounds
    rw [abs_lt]
    omega
  · omega

theorem Arrives.fitsWord_mul (hx : f.Arrives x) (hy : f'.Arrives y) (hle : (Width.product f f').total ≤ 64) :
    FitsWord (x.raw * y.raw) := by
  refine .of_abs_lt ?_
  have hx' := hx.abs_raw_lt
  have hy' := hy.abs_raw_lt
  have h₀ := abs_nonneg x.raw
  have h₁ := abs_nonneg y.raw
  rw [abs_mul]
  rcases hx.onGrid_or with hgrid | hgrid
  · rcases hy.onGrid_or with hgrid' | hgrid'
    · have hle' : ((|x.raw| * |y.raw| : ℤ) : ℚ) ≤ 2 ^ (64 : ℤ) := by
        have hvalue : ((|x.raw| * |y.raw| : ℤ) : ℚ) = |x.value * y.value| * 2 ^ (f.frac + f'.frac) := by
          rw [abs_mul, x.abs_value, y.abs_value, hgrid.frac_eq, hgrid'.frac_eq, zpow_neg, zpow_neg,
            zpow_add₀ two_ne_zero]
          push_cast
          field_simp
        calc ((|x.raw| * |y.raw| : ℤ) : ℚ) = |x.value * y.value| * 2 ^ (f.frac + f'.frac) := hvalue
          _ ≤ 2 ^ (Width.product f f').integer * 2 ^ (Width.product f f').frac :=
              mul_le_mul_of_nonneg_right (Width.product_holds hx.holds hy.holds).abs_le_zpow (by positivity)
          _ = 2 ^ (Width.product f f').total := (zpow_add₀ two_ne_zero _ _).symm
          _ ≤ 2 ^ (64 : ℤ) := zpow_le_zpow_right₀ one_le_two hle
      have hlt : |x.raw| * |y.raw| ≤ 2 ^ 64 := by exact_mod_cast hle'
      omega
    · nlinarith
  · nlinarith

end Format

end FixedNet

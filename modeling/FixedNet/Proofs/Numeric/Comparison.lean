import FixedNet.Proofs.Binary64.TotalOrder
import FixedNet.Proofs.Numeric.Checked
import FixedNet.Proofs.Numeric.Number

namespace FixedNet

open Binary64 (nearest)

theorem compare_sub_zero (p q : ℚ) : compare (p - q) 0 = compare p q := by
  rcases lt_trichotomy p q with h | h | h
  · rw [compare_lt_iff_lt.mpr h, compare_lt_iff_lt.mpr (sub_neg.mpr h)]
  · rw [compare_eq_iff_eq.mpr h, compare_eq_iff_eq.mpr (sub_eq_zero.mpr h)]
  · rw [compare_gt_iff_gt.mpr h, compare_gt_iff_gt.mpr (sub_pos.mpr h)]

theorem compare_nearest_eq_iff (p q : ℚ) :
    compare (nearest p) (nearest q) = compare p q ↔ p = q ∨ nearest p ≠ nearest q := by
  rcases lt_trichotomy p q with h | rfl | h
  · rw [compare_lt_iff_lt.mpr h, compare_lt_iff_lt, (Binary64.nearest_mono h.le).lt_iff_ne, or_iff_right h.ne]
  · exact iff_of_true (by rw [compare_eq_iff_eq.mpr rfl, compare_eq_iff_eq.mpr rfl]) (.inl rfl)
  · rw [compare_gt_iff_gt.mpr h, compare_gt_iff_gt, (Binary64.nearest_mono h.le).lt_iff_ne, or_iff_right h.ne', ne_comm]

namespace Fixed

def DifferenceFits (x y : Fixed) : Prop := y.raw ≠ -(2 ^ 127) ∧ x.SumFits y.opposite

variable {x y : Fixed}

theorem compare_raw_zero (x : Fixed) : compare x.raw 0 = compare x.value 0 := by
  rcases lt_trichotomy x.raw 0 with h | h | h
  · rw [compare_lt_iff_lt.mpr h, compare_lt_iff_lt.mpr ((value_neg_iff x).mpr h)]
  · rw [compare_eq_iff_eq.mpr h, compare_eq_iff_eq.mpr (by rw [value, h, Int.cast_zero, zero_mul])]
  · have hpos : 0 < x.value := mul_pos (by exact_mod_cast h) (Binary64.two_zpow_pos _)
    rw [compare_gt_iff_gt.mpr h, compare_gt_iff_gt.mpr hpos]

theorem compareValue_of_fits (hy : FitsWord y.raw) (h : x.DifferenceFits y) :
    x.compareValue y = compare x.value y.value := by
  obtain ⟨hleast, hsum⟩ := h
  rw [compareValue, sub_eq ((fitsWord_neg_iff hy).mpr hleast), add_ok hsum]
  dsimp only
  rw [compare_raw_zero, value_plus, value_opposite, ← sub_eq_add_neg, compare_sub_zero]

theorem exists_sub_eq_error (hy : FitsWord y.raw) (h : ¬ x.DifferenceFits y) : ∃ e, x.sub y = .error e := by
  rw [(sub_gives hy).fails_iff]
  refine or_iff_not_imp_left.mpr fun hleast ↦ ?_
  rw [(x.add_gives y.opposite).fails_iff]
  exact fun hsum ↦ h ⟨hleast, hsum⟩

theorem Moderate.parts_toFloat_ne (h : x.Moderate) : Binary64.parts x.toFloat ≠ .zero .negative := by
  intro hzero
  by_cases h0 : x.raw = 0
  · rw [h.toFloat_of_raw_eq_zero h0] at hzero
    cases hzero
  · exact h.toFloat_ne_zero h0 (Binary64.value_of_parts_zero hzero)

theorem compareValue_of_not_fits (hy : FitsWord y.raw) (hmx : x.Moderate) (hmy : y.Moderate)
    (h : ¬ x.DifferenceFits y) : x.compareValue y = compare (nearest x.value) (nearest y.value) := by
  obtain ⟨e, he⟩ := exists_sub_eq_error hy h
  obtain ⟨hfx, hvx⟩ := hmx.toFloat_exact
  obtain ⟨hfy, hvy⟩ := hmy.toFloat_exact
  rw [compareValue, he]
  dsimp only
  rw [Binary64.totalCompare_eq hfx hfy hmx.parts_toFloat_ne hmy.parts_toFloat_ne, hvx, hvy]

theorem Moderate.nearest_value_neg_iff (h : x.Moderate) : nearest x.value < 0 ↔ x.raw < 0 := by
  rw [← h.toFloat_exact.2, toFloat_lt_zero_iff h]

theorem abs_nearest_lt_of_apart {p q : ℚ} {e : ℤ} (he : -1074 ≤ e) (hp : |p| ≤ 2 ^ e) (hq : 2 ^ (e + 1) ≤ |q|) :
    |nearest p| < |nearest q| := by
  rw [Binary64.abs_nearest, Binary64.abs_nearest]
  calc nearest |p| ≤ nearest (2 ^ e) := Binary64.nearest_mono hp
    _ = 2 ^ e := Binary64.nearest_zpow he
    _ < 2 ^ (e + 1) := zpow_lt_zpow_right₀ one_lt_two (by omega)
    _ = nearest (2 ^ (e + 1)) := (Binary64.nearest_zpow (by omega)).symm
    _ ≤ nearest |q| := Binary64.nearest_mono hq

theorem Aligns.fitsWord_rawAt {frac : ℤ} (h : x.Aligns frac) : FitsWord (x.rawAt frac) := by
  rcases h with h0 | ⟨-, hfits⟩
  · rw [rawAt, h0, zero_mul]
    decide
  · exact hfits

theorem two_pow_le_abs_rawAt {frac : ℤ} (h : ¬ x.Aligns frac) : 2 ^ 127 ≤ |x.rawAt frac| := by
  obtain ⟨h0, h⟩ := not_or.mp h
  refine two_pow_le_abs_of_scaleUp_eq_none ?_
  unfold scaleUp
  rw [if_neg h0]
  split
  · rfl
  · exact checkWord_eq_none.mpr fun hfits ↦ h ⟨by omega, hfits⟩

theorem rawAt_neg_iff (x : Fixed) (frac : ℤ) : x.rawAt frac < 0 ↔ x.raw < 0 := by
  have hpos : (0 : ℤ) < 2 ^ (frac - x.frac).toNat := by positivity
  exact ⟨fun h ↦ neg_of_mul_neg_left h hpos.le, fun h ↦ mul_neg_of_neg_of_pos h hpos⟩

theorem abs_nearest_lt_of_not_aligns (hx : FitsWord x.raw) (hy : |y.raw| ≤ 2 ^ 126) (hge : y.frac ≤ 300)
    (h : ¬ x.Aligns (max x.frac y.frac)) : |nearest y.value| < |nearest x.value| := by
  have hlt : x.frac < y.frac := by
    by_contra hle
    exact h (.of_frac_eq (max_eq_left (not_lt.mp hle)).symm hx)
  rw [max_eq_right hlt.le] at h
  have hpos := Binary64.two_zpow_pos (-y.frac)
  refine abs_nearest_lt_of_apart (e := 126 - y.frac) (by omega) ?_ ?_
  · have hcast : ((|y.raw| : ℤ) : ℚ) ≤ 2 ^ (126 : ℤ) := by exact_mod_cast hy
    rw [abs_value, sub_eq_add_neg, zpow_add₀ two_ne_zero]
    exact mul_le_mul_of_nonneg_right hcast hpos.le
  · have hcast : (2 : ℚ) ^ (127 : ℤ) ≤ (|x.rawAt y.frac| : ℤ) := by exact_mod_cast two_pow_le_abs_rawAt h
    rw [value_eq_rawAt hlt.le, abs_mul, abs_of_pos hpos, ← Int.cast_abs,
      show 126 - y.frac + 1 = 127 + -y.frac by omega, zpow_add₀ two_ne_zero]
    exact mul_le_mul_of_nonneg_right hcast hpos.le

theorem nearest_ne_of_leaves (hmx : x.Moderate) (hmy : y.Moderate) (hx : x.Aligns (max x.frac y.frac))
    (hy : y.opposite.Aligns (max x.frac y.frac)) (h : ¬ FitsWord (x.plus y.opposite).raw) :
    nearest x.value ≠ nearest y.value := by
  have hfx := hx.fitsWord_rawAt
  have hfy := hy.fitsWord_rawAt
  have hsx := x.rawAt_neg_iff (max x.frac y.frac)
  have hsy := y.opposite.rawAt_neg_iff (max x.frac y.frac)
  have hy0 : y.raw = 0 → y.opposite.rawAt (max x.frac y.frac) = 0 := fun h0 ↦ by
    rw [rawAt, opposite, h0, neg_zero, zero_mul]
  have hplus : (x.plus y.opposite).raw = x.rawAt (max x.frac y.frac) + y.opposite.rawAt (max x.frac y.frac) := rfl
  have hopposite : y.opposite.raw = -y.raw := rfl
  have hnx := hmx.nearest_value_neg_iff
  have hny := hmy.nearest_value_neg_iff
  intro heq
  rw [heq, hny] at hnx
  unfold FitsWord at *
  omega

/-- Values of raw magnitude up to `2 ^ 126` whose difference cannot be formed have different nearest numbers: one of
them leaves the word when it is aligned, or they have opposite signs. -/
theorem nearest_ne_of_not_fits (hx : |x.raw| ≤ 2 ^ 126) (hy : |y.raw| ≤ 2 ^ 126) (hmx : x.Moderate) (hmy : y.Moderate)
    (h : ¬ x.DifferenceFits y) : nearest x.value ≠ nearest y.value := by
  have hfx : FitsWord x.raw := .of_abs_lt (by omega)
  have habs : |y.opposite.raw| = |y.raw| := abs_neg y.raw
  have hleast : y.raw ≠ -(2 ^ 127) := by
    intro hleast
    rw [hleast] at hy
    norm_num at hy
  intro heq
  by_cases hax : x.Aligns (max x.frac y.frac)
  · by_cases hay : y.opposite.Aligns (max x.frac y.frac)
    · exact nearest_ne_of_leaves hmx hmy hax hay (fun hsum ↦ h ⟨hleast, hax, hay, hsum⟩) heq
    · rw [max_comm] at hay
      have hlt := abs_nearest_lt_of_not_aligns (x := y.opposite) (.of_abs_lt (by omega)) hx hmx.frac_le hay
      rw [value_opposite, Binary64.nearest_neg, abs_neg, heq] at hlt
      exact lt_irrefl _ hlt
  · have hlt := abs_nearest_lt_of_not_aligns hfx hy hmy.frac_le hax
    rw [heq] at hlt
    exact lt_irrefl _ hlt

theorem compareValue_of_abs_le (hx : |x.raw| ≤ 2 ^ 126) (hy : |y.raw| ≤ 2 ^ 126) (hmx : x.Moderate) (hmy : y.Moderate) :
    x.compareValue y = compare x.value y.value := by
  have hfy : FitsWord y.raw := .of_abs_lt (by omega)
  by_cases h : x.DifferenceFits y
  · exact compareValue_of_fits hfy h
  · rw [compareValue_of_not_fits hfy hmx hmy h, compare_nearest_eq_iff]
    exact .inr (nearest_ne_of_not_fits hx hy hmx hmy h)

/-- Values on one grid compare as rationals. Where the difference leaves the word they have opposite signs, so that
the numbers decide alike. -/
theorem compareValue_eq (h : x.frac = y.frac) (hle : -256 ≤ x.frac) (hge : x.frac ≤ 256) (hx : FitsWord x.raw)
    (hy : FitsWord y.raw) (hy' : FitsWord (-y.raw)) : x.compareValue y = compare x.value y.value := by
  have hmx : x.Moderate := .of_le (hx.abs_le_word.trans (by norm_num)) hle hge
  have hmy : y.Moderate := .of_le (hy.abs_le_word.trans (by norm_num)) (by omega) (by omega)
  by_cases hfits : x.DifferenceFits y
  · exact compareValue_of_fits hy hfits
  · have hax : x.Aligns (max x.frac y.frac) := .of_frac_eq (by rw [h, max_self]) hx
    have hay : y.opposite.Aligns (max x.frac y.frac) := .of_frac_eq (by rw [h, max_self]; rfl) hy'
    rw [compareValue_of_not_fits hy hmx hmy hfits, compare_nearest_eq_iff]
    refine .inr (nearest_ne_of_leaves hmx hmy hax hay fun hsum ↦ hfits ⟨?_, hax, hay, hsum⟩)
    exact (fitsWord_neg_iff hy).mp hy'

/-- On words a comparison is right unless the difference cannot be formed and two different values have the same nearest
number; such values are taken for equal. Values of raw magnitude up to `2 ^ 126`, which those of all formats are, and
those that codes stand for, always compare as rationals, whatever their grids. -/
theorem compareValue_follows_order (hx : FitsWord x.raw) (hy : FitsWord y.raw) (hxf : -127 ≤ x.frac ∧ x.frac ≤ 128)
    (hyf : -127 ≤ y.frac ∧ y.frac ≤ 128) :
    (x.compareValue y = compare x.value y.value ↔
      x.DifferenceFits y ∨ x.value = y.value ∨ nearest x.value ≠ nearest y.value) ∧
    (x.compareValue y ≠ compare x.value y.value → x.compareValue y = .eq) ∧
    (|x.raw| ≤ 2 ^ 126 → |y.raw| ≤ 2 ^ 126 → x.compareValue y = compare x.value y.value) := by
  have hmx : x.Moderate := .of_le (hx.abs_le_word.trans (by norm_num)) (by omega) (by omega)
  have hmy : y.Moderate := .of_le (hy.abs_le_word.trans (by norm_num)) (by omega) (by omega)
  refine ⟨?_, ?_, fun hx hy ↦ compareValue_of_abs_le hx hy hmx hmy⟩
  · by_cases h : x.DifferenceFits y
    · exact iff_of_true (compareValue_of_fits hy h) (.inl h)
    · rw [compareValue_of_not_fits hy hmx hmy h, compare_nearest_eq_iff, or_iff_right h]
  · intro hne
    have h : ¬ x.DifferenceFits y := fun h ↦ hne (compareValue_of_fits hy h)
    rw [compareValue_of_not_fits hy hmx hmy h, ne_eq, compare_nearest_eq_iff, not_or, not_not] at hne
    rw [compareValue_of_not_fits hy hmx hmy h, compare_eq_iff_eq]
    exact hne.2

/-- The two lowest words on one grid: the lowest one has no opposite, and both have the number `-2 ^ 127`. -/
theorem compareValue_follows_order_lowest :
    ¬ (⟨-(2 ^ 127) + 1, 0⟩ : Fixed).DifferenceFits ⟨-(2 ^ 127), 0⟩ ∧
      nearest (⟨-(2 ^ 127) + 1, 0⟩ : Fixed).value = nearest (⟨-(2 ^ 127), 0⟩ : Fixed).value := by
  have hx : FitsWord (-(2 ^ 127) + 1) := by decide
  have hy : FitsWord (-(2 ^ 127)) := by decide
  obtain ⟨hright, -, -⟩ := compareValue_follows_order (x := ⟨-(2 ^ 127) + 1, 0⟩) (y := ⟨-(2 ^ 127), 0⟩) hx hy
    (by decide) (by decide)
  have hwrong : (⟨-(2 ^ 127) + 1, 0⟩ : Fixed).compareValue ⟨-(2 ^ 127), 0⟩ = .eq := by decide +kernel
  have hne : (⟨-(2 ^ 127) + 1, 0⟩ : Fixed).value ≠ (⟨-(2 ^ 127), 0⟩ : Fixed).value := by
    norm_num [value]
  rw [hwrong, eq_comm, compare_eq_iff_eq] at hright
  have h := hright.not.mp hne
  rw [not_or, not_or, not_not] at h
  exact ⟨h.1, h.2.2⟩

/-- Values that differ compare as equal: the two lowest words, and a raw value that leaves the word when it is aligned
to one of the largest words. In the other direction the two lowest words compare rightly, so that the comparison is not
even symmetric. -/
theorem comparison_merges_values :
    ((⟨-(2 ^ 127), 0⟩ : Fixed).value < (⟨-(2 ^ 127) + 1, 0⟩ : Fixed).value ∧
      (⟨-(2 ^ 127) + 1, 0⟩ : Fixed).compareValue ⟨-(2 ^ 127), 0⟩ = .eq ∧
      (⟨-(2 ^ 127), 0⟩ : Fixed).compareValue ⟨-(2 ^ 127) + 1, 0⟩ = .lt) ∧
    (⟨2 ^ 127 - 1, 1⟩ : Fixed).value < (⟨2 ^ 126, 0⟩ : Fixed).value ∧
      (⟨2 ^ 126, 0⟩ : Fixed).compareValue ⟨2 ^ 127 - 1, 1⟩ = .eq := by
  refine ⟨⟨?_, by decide +kernel, by decide +kernel⟩, ?_, by decide +kernel⟩
  · norm_num [value]
  · norm_num [value]

end Fixed

end FixedNet

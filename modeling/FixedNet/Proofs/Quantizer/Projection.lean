import FixedNet.Proofs.Numeric.Range
import FixedNet.Proofs.Quantizer.Reading

namespace FixedNet

open Binary64 (nearest IsNearest value)
open Float.Model.UnpackedFloat (Sign)

namespace Binary64

section

variable {low high r : Float} {l h : ℤ} (hlow : low.isFinite = true ∧ value low = l)
  (hhigh : high.isFinite = true ∧ value high = h) (hlh : l ≤ h)

include hlow hhigh hlh

theorem not_high_lt_low : ¬ high < low := by
  rw [lt_iff hhigh.1 hlow.1, hlow.2, hhigh.2, not_lt]
  exact_mod_cast hlh

theorem clampFloat_of_isFinite {n : ℤ} (hr : r.isFinite = true ∧ value r = n) :
    (clampFloat low high r).isFinite = true ∧ value (clampFloat low high r) = (max l (min h n) : ℤ) := by
  have hbelow : r < low ↔ n < l := by
    rw [lt_iff hr.1 hlow.1, hr.2, hlow.2]
    exact_mod_cast Iff.rfl
  have habove : high < r ↔ h < n := by
    rw [lt_iff hhigh.1 hr.1, hr.2, hhigh.2]
    exact_mod_cast Iff.rfl
  unfold clampFloat
  by_cases h₁ : n < l
  · rw [if_pos (hbelow.mpr h₁), if_neg (not_high_lt_low hlow hhigh hlh)]
    exact ⟨hlow.1, hlow.2.trans (by congr 1; omega)⟩
  · rw [if_neg (mt hbelow.mp h₁)]
    by_cases h₂ : h < n
    · rw [if_pos (habove.mpr h₂)]
      exact ⟨hhigh.1, hhigh.2.trans (by congr 1; omega)⟩
    · rw [if_neg (mt habove.mp h₂)]
      exact ⟨hr.1, hr.2.trans (by congr 1; omega)⟩

theorem clampFloat_of_infinity {q : ℚ} (hr : parts r = .infinity (if q < 0 then .negative else .positive)) :
    (clampFloat low high r).isFinite = true ∧ value (clampFloat low high r) = (if q < 0 then l else h : ℤ) := by
  unfold clampFloat
  split at hr
  case isTrue hq =>
    rw [if_pos ((lt_iff_of_infinity_left hr hlow.1).mpr rfl), if_neg (not_high_lt_low hlow hhigh hlh), if_pos hq]
    exact hlow
  case isFalse hq =>
    have hnot : ¬ r < low := fun hlt ↦ nomatch (lt_iff_of_infinity_left hr hlow.1).mp hlt
    rw [if_neg hnot, if_pos ((lt_iff_of_infinity_right hhigh.1 hr).mpr rfl), if_neg hq]
    exact hhigh

theorem clampFloat_round {s : Float} {q : ℚ} (hs : IsNearest s q)
    (hq : Rounding.nearestEven.round (nearest q) = Rounding.nearestEven.round q) (hl : |l| ≤ 2 ^ 64)
    (hh : |h| ≤ 2 ^ 64) : (clampFloat low high (roundWith .nearestEven s)).isFinite = true ∧
      value (clampFloat low high (roundWith .nearestEven s)) = (max l (min h (Rounding.nearestEven.round q)) : ℤ) := by
  rcases lt_or_ge |nearest q| (2 ^ (1024 : ℤ)) with hlt | hge
  · obtain ⟨hfinite, hvalue⟩ := hs.of_lt hlt
    have hround := roundWith_exact .nearestEven hfinite
    rw [hvalue, hq] at hround
    exact clampFloat_of_isFinite hlow hhigh hlh hround
  · have hparts := hs.of_le hge
    have hfinite : s.isFinite = false := by
      rw [Bool.eq_false_iff, Ne, isFinite_iff, hparts]
      exact Bool.false_ne_true
    have hfar : (2 : ℚ) ^ (64 : ℤ) < |q| := by
      by_contra hle
      have hmono := nearest_mono (not_lt.mp hle)
      rw [← abs_nearest, nearest_zpow (by norm_num)] at hmono
      exact absurd (hge.trans hmono) (not_le.mpr (zpow_lt_zpow_right₀ one_lt_two (by norm_num)))
    have hclamp := clampFloat_of_infinity hlow hhigh hlh hparts
    obtain ⟨hl₀, hl₁⟩ := abs_le.mp hl
    obtain ⟨hh₀, hh₁⟩ := abs_le.mp hh
    rw [roundWith_of_not_isFinite _ hfinite]
    refine ⟨hclamp.1, hclamp.2.trans ?_⟩
    rcases lt_or_ge q 0 with hneg | hpos
    · rw [abs_of_neg hneg] at hfar
      have hround := Rounding.nearestEven.round_mono (p := q) (q := ((-2 ^ 64 : ℤ) : ℚ)) (by
        push_cast
        norm_num at hfar ⊢
        linarith)
      rw [Rounding.round_intCast] at hround
      rw [if_pos hneg]
      congr 1
      omega
    · rw [abs_of_nonneg hpos] at hfar
      have hround := Rounding.nearestEven.round_mono (p := ((2 ^ 64 : ℤ) : ℚ)) (q := q) (by
        push_cast
        norm_num at hfar ⊢
        linarith)
      rw [Rounding.round_intCast] at hround
      rw [if_neg hpos.not_gt]
      congr 1
      omega

end

theorem exact_of_le {x : Float} {n : ℤ} (hx : IsNearest x n) (hn : |n| ≤ 2 ^ 53) : x.isFinite = true ∧ value x = n := by
  refine hx.exact (nearest_eq_self (n := n) (e := 0) (by simp) hn (by norm_num)) ?_
  have hcast : |(n : ℚ)| ≤ 2 ^ (53 : ℤ) := by exact_mod_cast hn
  exact hcast.trans_lt (zpow_lt_zpow_right₀ one_lt_two (by norm_num))

end Binary64

theorem word32_eq {n : ℤ} (h : -2147483648 ≤ n) (h' : n < 2147483648) : word32 n = n := by
  unfold word32
  rw [Int.bmod_def]
  norm_num
  omega

theorem word32_eq_of_le {n : ℤ} (h : -2147483648 ≤ n) (h' : n ≤ 2147483648) (hword : -64 ≤ word32 n) :
    word32 n = n := by
  refine word32_eq h (h'.lt_of_ne ?_)
  rintro rfl
  exact absurd hword (by decide)

namespace Uniform

variable (q : Uniform)

/-- The level nearest to a rational, ties to the even one, before clamping. -/
def level (x : ℚ) : ℤ := Rounding.nearestEven.round (x * 2 ^ (q.magnitude - q.integer))

def bottom : ℤ :=
  if q.keepNegative then -2 ^ q.magnitude + (if q.symmetric ∧ q.magnitude ≤ 53 then 1 else 0) else 0

def top : ℤ := 2 ^ q.magnitude - if q.magnitude ≤ 53 then 1 else 0

theorem magnitude_le : q.magnitude ≤ 64 := by
  have hbits := q.bits_bounds
  unfold magnitude
  split <;> omega

theorem levels_exact : q.levels.isFinite = true ∧ value q.levels = (2 ^ q.magnitude : ℤ) := by
  have hm := q.magnitude_le
  obtain ⟨hfinite, hvalue⟩ := Binary64.pow2_exact (e := q.magnitude) (by omega) (by omega)
  refine ⟨hfinite, hvalue.trans ?_⟩
  rw [zpow_natCast]
  push_cast
  rfl

theorem two_pow_le {m : ℕ} (h : m ≤ 53) : (1 : ℤ) ≤ 2 ^ m ∧ (2 : ℤ) ^ m ≤ 2 ^ 53 :=
  ⟨one_le_pow₀ (by norm_num), pow_le_pow_right₀ (by norm_num) h⟩

theorem highest_exact : q.highest.isFinite = true ∧ value q.highest = q.top := by
  obtain ⟨hfinite, hvalue⟩ := q.levels_exact
  unfold highest top
  by_cases hm : q.magnitude ≤ 53
  · obtain ⟨h₁, h₂⟩ := two_pow_le hm
    have hnearest := Binary64.isNearest_sub hfinite Binary64.one_exact.1
    rw [hvalue, Binary64.one_exact.2, ← Int.cast_one, ← Int.cast_sub] at hnearest
    rw [if_pos hm]
    refine Binary64.exact_of_le hnearest ?_
    rw [abs_le]
    omega
  · have hlost := Binary64.pow2_sub_one (m := q.magnitude) (by omega) q.magnitude_le
    rw [if_neg hm, sub_zero, levels, hlost]
    exact ⟨hfinite, hvalue⟩

theorem lowest_exact : q.lowest.isFinite = true ∧ value q.lowest = q.bottom := by
  obtain ⟨hfinite, hvalue⟩ := q.levels_exact
  unfold lowest bottom
  by_cases hk : q.keepNegative = true
  · rw [if_pos hk, if_pos hk]
    have hneg : (-q.levels).isFinite = true ∧ value (-q.levels) = (-2 ^ q.magnitude : ℤ) := by
      rw [Binary64.isFinite_neg, Binary64.value_neg, hvalue]
      exact ⟨hfinite, by push_cast; rfl⟩
    by_cases hs : q.symmetric = true
    · rw [if_pos hs]
      by_cases hm : q.magnitude ≤ 53
      · obtain ⟨h₁, h₂⟩ := two_pow_le hm
        have hnearest := Binary64.isNearest_add hneg.1 Binary64.one_exact.1
        rw [hneg.2, Binary64.one_exact.2, ← Int.cast_one, ← Int.cast_add] at hnearest
        rw [if_pos ⟨hs, hm⟩]
        refine Binary64.exact_of_le hnearest ?_
        rw [abs_le]
        omega
      · have hlost := Binary64.neg_pow2_add_one (m := q.magnitude) (by omega) q.magnitude_le
        rw [if_neg fun h ↦ hm h.2, add_zero, levels, hlost]
        exact hneg
    · have hnearest := Binary64.isNearest_add hneg.1 Binary64.isFinite_zero
      rw [Binary64.value_zero, add_zero] at hnearest
      rw [if_neg hs, if_neg fun h ↦ hs h.1, add_zero, ← hneg.2]
      exact hnearest.exact (Binary64.nearest_value _) (Binary64.abs_value_lt _)
  · rw [if_neg hk, if_neg hk]
    exact ⟨Binary64.isFinite_zero, by rw [Binary64.value_zero, Int.cast_zero]⟩

theorem bottom_bounds : -2 ^ q.magnitude ≤ q.bottom ∧ q.bottom ≤ 0 := by
  have hpos : (1 : ℤ) ≤ 2 ^ q.magnitude := one_le_pow₀ (by norm_num)
  unfold bottom
  split
  · split <;> omega
  · omega

theorem top_bounds : 2 ^ q.magnitude - 1 ≤ q.top ∧ q.top ≤ 2 ^ q.magnitude := by
  unfold top
  split <;> omega

variable {q} {f : Format}

/-- The grid of the format is that of the projection. -/
theorem grid_of_format (hb : q.isBinary = false) (hint : |q.integer| ≤ 2147483647) (hf : q.format = .ok f) :
    f.frac = q.magnitude - q.integer ∧ f.rawMin = (if q.keepNegative then -2 ^ q.magnitude else 0) ∧
      f.rawMax = 2 ^ q.magnitude - 1 := by
  have hbits := q.bits_bounds
  have hone : q.bits ≠ 1 := by
    unfold isBinary at hb
    exact of_decide_eq_false hb
  obtain ⟨h₁, h₂⟩ := abs_le.mp hint
  unfold format at hf
  rw [hb, if_neg Bool.false_ne_true] at hf
  obtain ⟨htotal, hinteger, hsigned, -, -⟩ := Format.fields_of_make hf
  have hbounds := f.integer_bounds
  rw [hinteger] at hbounds
  have hword := word32_eq_of_le (n := q.integer + if q.keepNegative then 1 else 0) (by split <;> omega)
    (by split <;> omega) hbounds.1
  rw [hword] at hinteger
  unfold Format.frac Format.rawMin Format.rawMax magnitude
  rw [htotal, hinteger, hsigned]
  cases q.keepNegative with
  | true =>
    simp only [if_true]
    exact ⟨by omega, trivial, trivial⟩
  | false =>
    simp only [Bool.false_eq_true, if_false]
    exact ⟨by omega, trivial, trivial⟩

theorem step_exact (hb : q.isBinary = false) (hint : |q.integer| ≤ 2147483647) (hf : q.format = .ok f) :
    q.step.isFinite = true ∧ value q.step = 2 ^ (-f.frac) := by
  obtain ⟨hfrac, -, -⟩ := grid_of_format hb hint hf
  have hbounds := f.frac_bounds
  have hword : word32 (q.integer - q.magnitude) = -f.frac := by
    rw [word32_eq] <;> omega
  rw [step, hword]
  exact Binary64.pow2_exact (by omega) (by omega)

/-- The projection is the nearest level, clamped. -/
theorem project_exact (hb : q.isBinary = false) (hint : |q.integer| ≤ 2147483647) (hf : q.format = .ok f) {x : Float}
    (hx : x.isFinite = true) : (q.project x).isFinite = true ∧
      value (q.project x) = (max q.bottom (min q.top (q.level (value x))) : ℤ) * 2 ^ (-f.frac) := by
  obtain ⟨hfrac, -, -⟩ := grid_of_format hb hint hf
  obtain ⟨hstep, hstepValue⟩ := step_exact hb hint hf
  have hbounds := f.frac_bounds
  have hbottom := q.bottom_bounds
  have htop := q.top_bounds
  have hpow : (2 : ℤ) ^ q.magnitude ≤ 2 ^ 64 := pow_le_pow_right₀ (by norm_num) q.magnitude_le
  have hone : (1 : ℤ) ≤ 2 ^ q.magnitude := one_le_pow₀ (by norm_num)
  have hdiv : IsNearest (x / q.step) (value x * 2 ^ f.frac) := by
    have h := Binary64.isNearest_div hx hstep (by rw [hstepValue]; positivity)
    rwa [hstepValue, zpow_neg, div_inv_eq_mul] at h
  obtain ⟨hfinite, hclamped⟩ := Binary64.clampFloat_round q.lowest_exact q.highest_exact (by omega) hdiv
    (Binary64.round_nearest_scaled x f.frac) (by rw [abs_le]; omega) (by rw [abs_le]; omega)
  rw [hfrac] at hclamped
  change value _ = (max q.bottom (min q.top (q.level (value x))) : ℤ) at hclamped
  have hmoderate : (Fixed.mk (max q.bottom (min q.top (q.level (value x)))) f.frac).Moderate :=
    .of_le (by dsimp only; rw [abs_le]; omega) (by dsimp only; omega) (by dsimp only; omega)
  have hproduct := Binary64.isNearest_mul hfinite hstep
  rw [hclamped, hstepValue] at hproduct
  have hnearest := hmoderate.nearest_value
  dsimp only at hnearest
  rw [← hclamped, Binary64.nearest_value, hclamped] at hnearest
  unfold project
  rw [hb, if_neg Bool.false_ne_true]
  exact hproduct.exact hnearest (hmoderate.abs_value_le.trans_lt (zpow_lt_zpow_right₀ one_lt_two (by norm_num)))

end Uniform

end FixedNet

import FixedNet.Proofs.Binary64.Nearest
import FixedNet.Proofs.Binary64.Parts

namespace FixedNet.Binary64

open Float.Model (UnpackedFloat totalExponent)
open Float.Model.UnpackedFloat (Sign Accuracy ExtendedMantissa shiftToExponent shiftToTargetExponent roundWithAccuracy)

/-- Where a rational lies between a mantissa and the next one, as the two bits behind the mantissa tell. -/
structure Located (em : ExtendedMantissa) (r : ℚ) : Prop where
  le : em.mantissa ≤ r
  lt : r < em.mantissa + 1
  roundBit : em.roundBit = true ↔ em.mantissa + 1 / 2 ≤ r
  stickyBit : em.stickyBit = true ↔ r ≠ em.mantissa ∧ r ≠ em.mantissa + 1 / 2

theorem Located.floor_eq {em : ExtendedMantissa} {r : ℚ} (h : Located em r) : ⌊r⌋ = em.mantissa := by
  rw [Int.floor_eq_iff]
  refine ⟨?_, ?_⟩
  · exact_mod_cast h.le
  · exact_mod_cast h.lt

theorem Located.roundedMantissa {em : ExtendedMantissa} {r : ℚ} (h : Located em r) :
    (em.roundedMantissa : ℤ) = Rounding.nearestEven.round r := by
  obtain ⟨m, half, rest⟩ := em
  have hfloor := h.floor_eq
  have hr := Int.floor_add_fract r
  rw [hfloor, Int.cast_natCast] at hr
  obtain ⟨hle, hlt, hround, hsticky⟩ := h
  dsimp only at hfloor hr hle hlt hround hsticky
  cases half with
  | false =>
    have hhalf : r < m + 1 / 2 := by simpa using hround
    rw [Rounding.nearestEven_of_lt (by linarith), hfloor]
    cases rest <;> rfl
  | true =>
    have hhalf : (m : ℚ) + 1 / 2 ≤ r := hround.mp rfl
    cases rest with
    | false =>
      have heq : r = m + 1 / 2 := by
        by_contra hne
        exact absurd (hsticky.mpr ⟨by intro h; linarith, hne⟩) (by simp)
      rw [Rounding.nearestEven_of_eq (by linarith), hfloor]
      exact_mod_cast rfl
    | true =>
      have hgt : (m : ℚ) + 1 / 2 < r := lt_of_le_of_ne hhalf (hsticky.mp rfl).2.symm
      rw [Rounding.nearestEven_of_gt (by linarith), hfloor]
      exact_mod_cast rfl

theorem Located.shiftRightOne {em : ExtendedMantissa} {r : ℚ} (h : Located em r) :
    Located em.shiftRightOne (r / 2) := by
  obtain ⟨m, half, rest⟩ := em
  obtain ⟨hle, hlt, hround, hsticky⟩ := h
  dsimp only at hle hlt hround hsticky
  have hdiv : (m : ℚ) = 2 * (m / 2 : ℕ) + (m % 2 : ℕ) := by exact_mod_cast (Nat.div_add_mod m 2).symm
  have hrest : (half || rest) = true ↔ r ≠ m := by
    rw [Bool.or_eq_true, hround, hsticky]
    constructor
    · rintro (h | h) heq
      · linarith
      · exact h.1 heq
    · intro hne
      by_cases heq : r = m + 1 / 2
      · exact .inl heq.ge
      · exact .inr ⟨hne, heq⟩
  rcases Nat.mod_two_eq_zero_or_one m with hm | hm <;> rw [hm] at hdiv <;> push_cast at hdiv
  · refine ⟨?_, ?_, ?_, ?_⟩ <;> dsimp only [ExtendedMantissa.shiftRightOne]
    · linarith
    · linarith
    · refine iff_of_false (by simp [hm]) ?_
      linarith
    · rw [hrest]
      constructor
      · intro hne
        exact ⟨fun h ↦ hne (by linarith), fun h ↦ by linarith⟩
      · rintro ⟨hne, -⟩ heq
        exact hne (by linarith)
  · refine ⟨?_, ?_, ?_, ?_⟩ <;> dsimp only [ExtendedMantissa.shiftRightOne]
    · linarith
    · linarith
    · refine iff_of_true (by simp [hm]) ?_
      linarith
    · rw [hrest]
      constructor
      · intro hne
        exact ⟨fun h ↦ by linarith, fun h ↦ hne (by linarith)⟩
      · rintro ⟨-, hne⟩ heq
        exact hne (by linarith)

theorem Located.shiftRight {em : ExtendedMantissa} {r : ℚ} (h : Located em r) (k : ℕ) :
    Located (em >>> k) (r / 2 ^ k) := by
  induction k with
  | zero =>
    rw [pow_zero, div_one]
    exact h
  | succ k ih =>
    have h := ih.shiftRightOne
    rwa [div_div, ← pow_succ] at h

/-- The accuracy of a mantissa, as a statement on the number it approximates. -/
def Approximates (m : ℕ) (acc : Accuracy) (r : ℚ) : Prop := Located (.ofMantissaAndAccuracy m acc) r

theorem approximates_exact (m : ℕ) : Approximates m .exact m := by
  refine ⟨le_rfl, lt_add_one _, ?_, ?_⟩ <;> dsimp only [ExtendedMantissa.ofMantissaAndAccuracy]
  · exact iff_of_false (by simp) (by linarith)
  · exact iff_of_false (by simp) (by simp)

theorem targetExponent_eq {m : ℕ} {e : ℤ} {acc : Accuracy} {q : ℚ} (hq : 0 < q) (h : Approximates m acc (q / 2 ^ e))
    (he : e ≤ lastPlace q) : Float.Model.Format.binary64.targetExponent (totalExponent m e) = lastPlace q := by
  have hp := two_zpow_pos e
  have hm : (Float.Model.UnpackedFloat.ExtendedMantissa.ofMantissaAndAccuracy m acc).mantissa = m := by
    cases acc with
    | exact => rfl
    | inexact o => cases o <;> rfl
  obtain ⟨hle, hlt, -, -⟩ := h
  rw [hm] at hle hlt
  rw [le_div_iff₀ hp] at hle
  rw [div_lt_iff₀ hp] at hlt
  change max ((m.log2 : ℤ) + 1 + e - 53) (-1074) = max (Int.log 2 |q| - 52) (-1074)
  rw [lastPlace] at he
  rw [abs_of_pos hq] at he ⊢
  rcases Nat.eq_zero_or_pos m with rfl | hpos
  · have hlog : Int.log 2 q < e := (lt_zpow_iff hq).mp (by simpa using hlt)
    rw [Nat.log2_zero]
    omega
  · have hlo : (2 : ℚ) ^ m.log2 ≤ m := by exact_mod_cast Nat.log2_self_le hpos.ne'
    have hhi : (m : ℚ) + 1 ≤ 2 ^ (m.log2 + 1) := by exact_mod_cast Nat.lt_log2_self
    have hlog : Int.log 2 q = m.log2 + e := by
      refine log_eq hq ?_ ?_
      · rw [zpow_add₀ two_ne_zero, zpow_natCast]
        exact (mul_le_mul_of_nonneg_right hlo hp.le).trans hle
      · rw [add_right_comm, zpow_add₀ two_ne_zero]
        refine hlt.trans_le (mul_le_mul_of_nonneg_right ?_ hp.le)
        exact_mod_cast hhi
    omega

theorem div_lastPlace_lt {q : ℚ} (hq : 0 < q) : q / 2 ^ lastPlace q < 2 ^ 53 := by
  rw [div_lt_iff₀ (two_zpow_pos _), ← zpow_natCast, ← zpow_add₀ two_ne_zero, lt_zpow_iff hq, lastPlace, abs_of_pos hq]
  push_cast
  omega

theorem le_div_lastPlace {q : ℚ} (hq : 0 < q) (h : lastPlace q ≠ -1074) : 2 ^ 52 ≤ q / 2 ^ lastPlace q := by
  rw [le_div_iff₀ (two_zpow_pos _), ← zpow_natCast, ← zpow_add₀ two_ne_zero, zpow_le_iff hq]
  rw [lastPlace, abs_of_pos hq] at h ⊢
  push_cast
  omega

theorem neg_1074_le_lastPlace (q : ℚ) : -1074 ≤ lastPlace q := le_max_right _ _

theorem shiftToTargetExponent_exact {m : ℕ} {e : ℤ} (hm : m ≤ 2 ^ 53) (he : -1074 ≤ e) :
    ∃ m' e', (shiftToTargetExponent .binary64 m e .exact).1.mantissa = m' ∧
      (shiftToTargetExponent .binary64 m e .exact).2 = e' ∧ (m : ℚ) * 2 ^ e = m' * 2 ^ e' ∧
      (2 ^ 52 ≤ m ∨ e = -1074 → Reduced m' e') := by
  have htarget : Float.Model.Format.binary64.targetExponent (totalExponent m e) =
      max ((m.log2 : ℤ) + 1 + e - 53) (-1074) := rfl
  rcases hm.lt_or_eq with hlt | rfl
  · have hlog : m.log2 < 53 := by
      rcases Nat.eq_zero_or_pos m with rfl | hpos
      · simp
      · exact (Nat.log2_lt hpos.ne').mpr hlt
    have hk : (Float.Model.Format.binary64.targetExponent (totalExponent m e) - e).toNat = 0 := by omega
    refine ⟨m, e, ?_, ?_, rfl, fun h ↦ ⟨hlt, he, h⟩⟩
    · rw [shiftToTargetExponent, shiftToExponent, hk]
      rfl
    · rw [shiftToTargetExponent, shiftToExponent, hk]
      simp
  · rw [Nat.log2_two_pow] at htarget
    have hk : (Float.Model.Format.binary64.targetExponent (totalExponent (2 ^ 53) e) - e).toNat = 1 := by omega
    refine ⟨2 ^ 52, e + 1, ?_, ?_, ?_, fun _ ↦ ⟨by norm_num, by omega, .inl le_rfl⟩⟩
    · rw [shiftToTargetExponent, shiftToExponent, hk]
      rfl
    · rw [shiftToTargetExponent, shiftToExponent, hk]
      rfl
    · rw [zpow_add_one₀ two_ne_zero]
      push_cast
      ring

theorem roundWithAccuracy_spec {s : Sign} {m : ℕ} {e : ℤ} {acc : Accuracy} {q : ℚ} (hq : 0 < q)
    (h : Approximates m acc (q / 2 ^ e)) (he : e ≤ lastPlace q) :
    ∃ (m' : ℕ) (e' : ℤ), nearest q = m' * 2 ^ e' ∧ Reduced m' e' ∧
      roundWithAccuracy .binary64 s m e acc = if h : 0 < m' then .finite s m' e' h else .zero s := by
  have htarget := targetExponent_eq hq h he
  have hk : ((lastPlace q - e).toNat : ℤ) = lastPlace q - e := Int.toNat_of_nonneg (by omega)
  have hfirst : shiftToTargetExponent .binary64 m e acc =
      (ExtendedMantissa.ofMantissaAndAccuracy m acc >>> (lastPlace q - e).toNat, lastPlace q) := by
    rw [shiftToTargetExponent, htarget, shiftToExponent, hk]
    congr 1
    ring
  have hloc := Located.shiftRight h (lastPlace q - e).toNat
  rw [div_div, ← zpow_natCast, hk, ← zpow_add₀ two_ne_zero, add_sub_cancel] at hloc
  have hround := hloc.roundedMantissa
  generalize hr : (ExtendedMantissa.ofMantissaAndAccuracy m acc >>> (lastPlace q - e).toNat).roundedMantissa = r
    at hround
  have hnearest : nearest q = r * 2 ^ lastPlace q := by
    rw [nearest, ← hround, Int.cast_natCast]
  have hupper : r ≤ 2 ^ 53 := by
    have h := Rounding.nearestEven.round_mono (q := ((2 ^ 53 : ℤ) : ℚ)) (by exact_mod_cast (div_lastPlace_lt hq).le)
    rw [Rounding.round_intCast, ← hround] at h
    exact_mod_cast h
  have hlower : 2 ^ 52 ≤ r ∨ lastPlace q = -1074 := by
    by_cases hplace : lastPlace q = -1074
    · exact .inr hplace
    · have h := Rounding.nearestEven.round_mono (p := ((2 ^ 52 : ℤ) : ℚ))
        (by exact_mod_cast le_div_lastPlace hq hplace)
      rw [Rounding.round_intCast, ← hround] at h
      exact .inl (by exact_mod_cast h)
  obtain ⟨m', e', hm', he', hvalue, hreduced⟩ := shiftToTargetExponent_exact hupper (neg_1074_le_lastPlace q)
  refine ⟨m', e', hnearest.trans hvalue, hreduced hlower, ?_⟩
  unfold roundWithAccuracy
  rw [hfirst]
  dsimp only
  rw [hr]
  subst hm' he'
  by_cases hzero : (shiftToTargetExponent .binary64 r (lastPlace q) .exact).1.mantissa = 0
  · rw [dif_pos hzero, dif_neg (by omega)]
  · rw [dif_neg hzero, dif_pos (by omega)]

end FixedNet.Binary64

import FixedNet.Proofs.Binary64.Rounded
import FixedNet.Proofs.Binary64.Value

namespace FixedNet.Binary64

open Float.Model (UnpackedFloat totalExponent)
open Float.Model.UnpackedFloat (Sign Accuracy ExtendedMantissa roundWithAccuracy decreaseExponent accuracyOfFraction
  divCore)

/-- The number for a rational: the nearest one, infinite if that is beyond the largest exponent. -/
structure IsNearest (x : Float) (q : ℚ) : Prop where
  of_lt : |nearest q| < 2 ^ (1024 : ℤ) → x.isFinite = true ∧ value x = nearest q
  of_le : 2 ^ (1024 : ℤ) ≤ |nearest q| → parts x = .infinity (if q < 0 then .negative else .positive)

theorem isNearest_of_parts_zero {x : Float} {s : Sign} (h : parts x = .zero s) : IsNearest x 0 := by
  refine ⟨fun _ ↦ ⟨?_, ?_⟩, fun hle ↦ ?_⟩
  · rw [isFinite_iff, h]
    rfl
  · rw [nearest_zero, value, h]
    rfl
  · rw [nearest_zero, abs_zero] at hle
    exact absurd hle (two_zpow_pos _).not_ge

theorem isNearest_of_nearest_eq_zero {x : Float} {q : ℚ} {s : Sign} (hq : nearest q = 0) (h : parts x = .zero s) :
    IsNearest x q := by
  have h0 := isNearest_of_parts_zero h
  rw [nearest_zero.symm] at hq
  refine ⟨fun hlt ↦ hq ▸ h0.of_lt (hq ▸ hlt), fun hle ↦ absurd hle ?_⟩
  rw [hq, nearest_zero, abs_zero]
  exact (two_zpow_pos _).not_ge

theorem signed_neg_iff {s : Sign} {q : ℚ} (hq : 0 < q) : signed s q < 0 ↔ s = .negative := by
  cases s with
  | negative => exact iff_of_true (neg_neg_of_pos hq) rfl
  | positive => exact iff_of_false hq.le.not_gt (by simp)

theorem isNearest_roundWithAccuracy {s : Sign} {m : ℕ} {e : ℤ} {acc : Accuracy} {q : ℚ} (hq : 0 < q)
    (h : Approximates m acc (q / 2 ^ e)) (he : e ≤ lastPlace q) :
    IsNearest (ofParts (roundWithAccuracy .binary64 s m e acc)) (signed s q) := by
  obtain ⟨m', e', hvalue, hreduced, hround⟩ := roundWithAccuracy_spec (s := s) hq h he
  have habs : |nearest (signed s q)| = nearest q := by
    rw [nearest_signed, abs_signed, abs_of_nonneg (nearest_nonneg hq.le)]
  rw [hround]
  split
  case isFalse hm =>
    obtain rfl := Nat.eq_zero_of_not_pos hm
    refine isNearest_of_nearest_eq_zero (s := s) ?_ (parts_ofParts trivial)
    rw [← abs_eq_zero, habs, hvalue]
    simp
  case isTrue hm =>
    rcases le_or_gt e' 971 with hle | hlt
    · have hparts := parts_ofParts (u := .finite s m' e' hm) ⟨hreduced, hle⟩
      have hlt : nearest q < 2 ^ (1024 : ℤ) := by
        rw [hvalue]
        exact hreduced.mul_lt.trans_le (zpow_le_zpow_right₀ one_le_two (by omega))
      refine ⟨fun _ ↦ ⟨?_, ?_⟩, fun hge ↦ absurd hge (habs ▸ hlt.not_ge)⟩
      · rw [isFinite_iff, hparts]
        rfl
      · rw [value, hparts, nearest_signed, hvalue]
        rfl
    · have hge : 2 ^ (1024 : ℤ) ≤ nearest q := by
        rw [hvalue]
        exact (zpow_le_zpow_right₀ one_le_two (by omega)).trans (hreduced.le_mul (by omega))
      refine ⟨fun hlt' ↦ absurd (habs ▸ hlt') hge.not_gt, fun _ ↦ ?_⟩
      rw [parts_ofParts_of_lt hlt]
      cases s with
      | negative => rw [if_pos ((signed_neg_iff hq).mpr rfl)]
      | positive => rw [if_neg fun hneg ↦ Sign.noConfusion ((signed_neg_iff hq).mp hneg)]

theorem log_mul {m : ℕ} (hm : 0 < m) (e : ℤ) : Int.log 2 ((m : ℚ) * 2 ^ e) = m.log2 + e := by
  rw [log_mul_zpow (by exact_mod_cast hm), Int.log_natCast, ← Nat.log2_eq_log_two]

theorem lastPlace_mul {m : ℕ} (hm : 0 < m) (e : ℤ) : lastPlace ((m : ℚ) * 2 ^ e) = max (m.log2 + e - 52) (-1074) := by
  rw [lastPlace, abs_of_pos (finite_pos hm e), log_mul hm]

theorem isNearest_exact {s : Sign} {m : ℕ} {e : ℤ} (hm : 0 < m) (he : e ≤ lastPlace (m * 2 ^ e)) :
    IsNearest (ofParts (roundWithAccuracy .binary64 s m e .exact)) (signed s (m * 2 ^ e)) := by
  refine isNearest_roundWithAccuracy (finite_pos hm e) ?_ he
  rw [mul_div_cancel_right₀ _ (two_zpow_pos e).ne']
  exact approximates_exact m

theorem decreaseExponent_eq (m : ℕ) (e t : ℤ) :
    decreaseExponent m e t = (m * 2 ^ (e - t).toNat, e - (e - t).toNat) := by
  rw [decreaseExponent, Nat.shiftLeft_eq]

theorem isNearest_round (s : Sign) {m : ℕ} (hm : 0 < m) (e : ℤ) :
    IsNearest (ofParts (UnpackedFloat.round .binary64 s m e)) (signed s (m * 2 ^ e)) := by
  have htarget : Float.Model.Format.binary64.targetExponent (totalExponent m e) =
      max ((m.log2 : ℤ) + 1 + e - 53) (-1074) := rfl
  unfold UnpackedFloat.round
  dsimp only
  rw [decreaseExponent_eq, htarget]
  generalize hk : (e - max ((m.log2 : ℤ) + 1 + e - 53) (-1074)).toNat = k
  have hvalue : (m : ℚ) * 2 ^ e = ((m * 2 ^ k : ℕ) : ℚ) * 2 ^ (e - k) := by
    push_cast
    rw [mul_assoc, ← zpow_natCast, ← zpow_add₀ two_ne_zero]
    congr 2
    ring
  rw [hvalue]
  refine isNearest_exact (by positivity) ?_
  dsimp only
  rw [← hvalue, lastPlace_mul hm e]
  omega

theorem isNearest_normalize (n e : ℤ) (s : Sign) :
    IsNearest (ofParts (UnpackedFloat.normalize .binary64 n e s)) (n * 2 ^ e) := by
  unfold UnpackedFloat.normalize
  rcases lt_trichotomy n 0 with h | rfl | h
  · rw [compare_lt_iff_lt.mpr h]
    have hn : ((n : ℚ) * 2 ^ e) = signed .negative ((-n).toNat * 2 ^ e) := by
      have hcast : (((-n).toNat : ℤ) : ℚ) = -n := by rw [Int.toNat_of_nonneg (by omega), Int.cast_neg]
      rw [Int.cast_natCast] at hcast
      rw [signed, hcast]
      ring
    rw [hn]
    exact isNearest_round .negative (by omega) e
  · rw [compare_eq_iff_eq.mpr rfl, Int.cast_zero, zero_mul]
    exact isNearest_of_parts_zero (parts_ofParts (u := .zero s) trivial)
  · rw [compare_gt_iff_gt.mpr h]
    have hn : ((n : ℚ) * 2 ^ e) = signed .positive (n.toNat * 2 ^ e) := by
      have hcast : ((n.toNat : ℤ) : ℚ) = n := by rw [Int.toNat_of_nonneg (by omega)]
      rw [Int.cast_natCast] at hcast
      rw [signed, hcast]
    rw [hn]
    exact isNearest_round .positive (by omega) e

theorem isNearest_ofInt (n : ℤ) : IsNearest (ofInt n) n := by
  have h := isNearest_normalize n 0 .positive
  rwa [zpow_zero, mul_one] at h

theorem isNearest_pow2 {e : ℤ} (he : -1074 ≤ e) : IsNearest (pow2 e) (2 ^ e) := by
  have h := isNearest_round .positive one_pos e
  rw [Nat.cast_one, one_mul] at h
  rw [pow2, if_neg (by omega)]
  exact h

theorem value_of_parts {x : Float} {s : Sign} {m : ℕ} {e : ℤ} {hm : 0 < m} (h : parts x = .finite s m e hm) :
    value x = signed s (m * 2 ^ e) := by
  rw [value, h]
  rfl

theorem value_of_parts_zero {x : Float} {s : Sign} (h : parts x = .zero s) : value x = 0 := by
  rw [value, h]
  rfl

theorem parts_cases {x : Float} (h : x.isFinite = true) :
    (∃ s, parts x = .zero s) ∨ ∃ s m e hm, parts x = .finite s m e hm ∧ Reduced m e := by
  have hc := isCanonical_parts x
  rw [isFinite_iff] at h
  generalize parts x = u at h hc
  cases u with
  | infinity | notANumber => cases h
  | zero s => exact .inl ⟨s, rfl⟩
  | finite s m e hm => exact .inr ⟨s, m, e, hm, rfl, hc.1⟩

theorem mul_exponent_le {m m' : ℕ} {e e' : ℤ} (hm : 0 < m) (hm' : 0 < m') (h : Reduced m e) (h' : Reduced m' e') :
    e + e' ≤ lastPlace ((m * m' : ℕ) * 2 ^ (e + e')) := by
  rw [lastPlace_mul (by positivity)]
  by_cases hlong : 2 ^ 52 ≤ m * m'
  · have hlog := (Nat.le_log2 (Nat.mul_pos hm hm').ne').mpr hlong
    omega
  · have hle : m ≤ m * m' := Nat.le_mul_of_pos_right m hm'
    have hle' : m' ≤ m * m' := Nat.le_mul_of_pos_left m' hm
    have he := h.leading.resolve_left (by omega)
    have he' := h'.leading.resolve_left (by omega)
    omega

theorem signed_mul_signed (s s' : Sign) (p q : ℚ) : signed s p * signed s' q = signed (s * s') (p * q) := by
  cases s <;> cases s' <;> simp only [signed, neg_mul, mul_neg, neg_neg]

theorem isNearest_mul {x y : Float} (hx : x.isFinite = true) (hy : y.isFinite = true) :
    IsNearest (x * y) (value x * value y) := by
  have hparts : x * y = ofParts ((parts x).mul .binary64 (parts y)) := rfl
  rcases parts_cases hx with ⟨s, hxp⟩ | ⟨s, m, e, hm, hxp, hr⟩
  · rw [value_of_parts_zero hxp, zero_mul]
    rcases parts_cases hy with ⟨s', hyp⟩ | ⟨s', m', e', hm', hyp, hr'⟩ <;> rw [hxp, hyp] at hparts <;>
      exact isNearest_of_parts_zero (hparts ▸ parts_ofParts (u := .zero (s * s')) trivial)
  · rcases parts_cases hy with ⟨s', hyp⟩ | ⟨s', m', e', hm', hyp, hr'⟩
    · rw [value_of_parts_zero hyp, mul_zero]
      rw [hxp, hyp] at hparts
      exact isNearest_of_parts_zero (hparts ▸ parts_ofParts (u := .zero (s * s')) trivial)
    · rw [hxp, hyp] at hparts
      rw [hparts, value_of_parts hxp, value_of_parts hyp, signed_mul_signed, mul_mul_mul_comm,
        ← zpow_add₀ two_ne_zero, ← Nat.cast_mul]
      exact isNearest_exact (Nat.mul_pos hm hm') (mul_exponent_le hm hm' hr hr')

theorem approximates_inexact {m : ℕ} {r : ℚ} (h0 : (m : ℚ) < r) (h1 : r < m + 1) :
    Approximates m (.inexact (compare (2 * (r - m)) 1)) r := by
  rcases lt_trichotomy (2 * (r - m)) 1 with h | h | h
  · rw [compare_lt_iff_lt.mpr h]
    refine ⟨h0.le, h1, iff_of_false (by simp [ExtendedMantissa.ofMantissaAndAccuracy]) ?_, iff_of_true rfl ?_⟩
    · change ¬ (m : ℚ) + 1 / 2 ≤ r
      linarith
    · exact ⟨h0.ne', fun heq ↦ by change r = (m : ℚ) + 1 / 2 at heq; linarith⟩
  · rw [compare_eq_iff_eq.mpr h]
    refine ⟨h0.le, h1, iff_of_true rfl ?_, iff_of_false (by simp [ExtendedMantissa.ofMantissaAndAccuracy]) ?_⟩
    · change (m : ℚ) + 1 / 2 ≤ r
      linarith
    · exact fun hne ↦ hne.2 (by change r = (m : ℚ) + 1 / 2; linarith)
  · rw [compare_gt_iff_gt.mpr h]
    refine ⟨h0.le, h1, iff_of_true rfl ?_, iff_of_true rfl ?_⟩
    · change (m : ℚ) + 1 / 2 ≤ r
      linarith
    · exact ⟨h0.ne', fun heq ↦ by change r = (m : ℚ) + 1 / 2 at heq; linarith⟩

theorem approximates_quotient (n : ℕ) {d : ℕ} (hd : 0 < d) :
    Approximates (n / d) (accuracyOfFraction (n % d) d) ((n : ℚ) / d) := by
  have hd' : (0 : ℚ) < d := by exact_mod_cast hd
  have hmod : ((n % d : ℕ) : ℚ) < d := by exact_mod_cast Nat.mod_lt n hd
  have hdiv : (n : ℚ) / d - (n / d : ℕ) = (n % d : ℕ) / d := by
    have h : (n : ℚ) = d * (n / d : ℕ) + (n % d : ℕ) := by exact_mod_cast (Nat.div_add_mod n d).symm
    rw [eq_div_iff hd'.ne', sub_mul, div_mul_cancel₀ _ hd'.ne']
    linarith
  unfold accuracyOfFraction
  by_cases h0 : n % d = 0
  · rw [if_pos h0]
    rw [h0, Nat.cast_zero, zero_div, sub_eq_zero] at hdiv
    rw [hdiv]
    exact approximates_exact _
  · rw [if_neg h0]
    have hpos : (0 : ℚ) < (n % d : ℕ) := by exact_mod_cast Nat.pos_of_ne_zero h0
    have hcompare : compare (2 * (n % d)) d = compare (2 * ((n : ℚ) / d - (n / d : ℕ))) 1 := by
      rw [hdiv, ← mul_div_assoc]
      rcases lt_trichotomy (2 * (n % d)) d with h | h | h
      · have h' : (2 * (n % d : ℕ) : ℚ) < d := by exact_mod_cast h
        rw [compare_lt_iff_lt.mpr h, compare_lt_iff_lt.mpr ((div_lt_one hd').mpr h')]
      · have h' : (2 * (n % d : ℕ) : ℚ) = d := by exact_mod_cast h
        rw [compare_eq_iff_eq.mpr h, compare_eq_iff_eq.mpr ((div_eq_one_iff_eq hd'.ne').mpr h')]
      · have h' : (d : ℚ) < 2 * (n % d : ℕ) := by exact_mod_cast h
        rw [compare_gt_iff_gt.mpr h, compare_gt_iff_gt.mpr ((one_lt_div hd').mpr h')]
    rw [hcompare]
    refine approximates_inexact ?_ ?_
    · rw [← sub_pos, hdiv]
      positivity
    · rw [← sub_lt_iff_lt_add', hdiv, div_lt_one hd']
      exact hmod

theorem isNearest_divCore (s : Sign) {m m' : ℕ} {e e' : ℤ} (hm : 0 < m) (hm' : 0 < m') :
    IsNearest (ofParts (roundWithAccuracy .binary64 s (divCore .binary64 m e m' e').1 (divCore .binary64 m e m' e').2.1
      (divCore .binary64 m e m' e').2.2)) (signed s (m * 2 ^ e / (m' * 2 ^ e'))) := by
  have hq : (0 : ℚ) < m * 2 ^ e / (m' * 2 ^ e') := div_pos (finite_pos hm e) (finite_pos hm' e')
  have htarget : Float.Model.Format.binary64.targetExponent (totalExponent m e - totalExponent m' e') =
      max ((m.log2 : ℤ) + 1 + e - (m'.log2 + 1 + e') - 53) (-1074) := rfl
  unfold divCore
  dsimp only
  rw [htarget, Nat.shiftLeft_eq]
  generalize ht : min (e - e') (max ((m.log2 : ℤ) + 1 + e - (m'.log2 + 1 + e') - 53) (-1074)) = t
  have hk : ((e - e' - t).toNat : ℤ) = e - e' - t := Int.toNat_of_nonneg (by omega)
  refine isNearest_roundWithAccuracy hq ?_ ?_
  · have hvalue : (m : ℚ) * 2 ^ e / (m' * 2 ^ e') / 2 ^ t = ((m * 2 ^ (e - e' - t).toNat : ℕ) : ℚ) / m' := by
      have hpos : (0 : ℚ) < m' := by exact_mod_cast hm'
      push_cast
      rw [← zpow_natCast, hk, zpow_sub₀ two_ne_zero, zpow_sub₀ two_ne_zero]
      field_simp
    rw [hvalue]
    exact approximates_quotient _ hm'
  · have hlog : m.log2 + e - (m'.log2 + e') - 1 ≤ Int.log 2 ((m : ℚ) * 2 ^ e / (m' * 2 ^ e')) := by
      rw [← zpow_le_iff hq, le_div_iff₀ (finite_pos hm' e')]
      have hlt := lt_zpow_log ((m' : ℚ) * 2 ^ e')
      have hle := zpow_log_le (finite_pos hm e)
      rw [log_mul hm'] at hlt
      rw [log_mul hm] at hle
      calc (2 : ℚ) ^ (m.log2 + e - (m'.log2 + e') - 1) * (m' * 2 ^ e')
          ≤ 2 ^ (m.log2 + e - (m'.log2 + e') - 1) * 2 ^ (m'.log2 + e' + 1) :=
            mul_le_mul_of_nonneg_left hlt.le (two_zpow_pos _).le
        _ = 2 ^ (m.log2 + e) := by
            rw [← zpow_add₀ two_ne_zero]
            congr 1
            ring
        _ ≤ m * 2 ^ e := hle
    rw [lastPlace, abs_of_pos hq]
    omega

theorem signed_div_signed (s s' : Sign) (p q : ℚ) : signed s p / signed s' q = signed (s / s') (p / q) := by
  cases s <;> cases s' <;> simp only [signed, neg_div, div_neg, neg_neg] <;> rfl

theorem isNearest_div {x y : Float} (hx : x.isFinite = true) (hy : y.isFinite = true) (h0 : value y ≠ 0) :
    IsNearest (x / y) (value x / value y) := by
  have hparts : x / y = ofParts ((parts x).div .binary64 (parts y)) := rfl
  rcases parts_cases hy with ⟨s', hyp⟩ | ⟨s', m', e', hm', hyp, hr'⟩
  · exact absurd (value_of_parts_zero hyp) h0
  rcases parts_cases hx with ⟨s, hxp⟩ | ⟨s, m, e, hm, hxp, hr⟩
  · rw [value_of_parts_zero hxp, zero_div]
    rw [hxp, hyp] at hparts
    exact isNearest_of_parts_zero (hparts ▸ parts_ofParts (u := .zero (s / s')) trivial)
  · rw [hxp, hyp] at hparts
    rw [hparts, value_of_parts hxp, value_of_parts hyp, signed_div_signed]
    exact isNearest_divCore (s / s') hm hm'

theorem decreaseExponent_value (s : Sign) (m : ℕ) {e t : ℤ} (h : t ≤ e) :
    ((s.apply ((decreaseExponent m e t).1 : ℕ) : ℤ) : ℚ) * 2 ^ t = signed s (m * 2 ^ e) := by
  have hk : ((e - t).toNat : ℤ) = e - t := Int.toNat_of_nonneg (by omega)
  rw [decreaseExponent_eq, signed_apply, signed_mul]
  push_cast
  rw [mul_assoc, ← zpow_natCast, hk, ← zpow_add₀ two_ne_zero, sub_add_cancel]

theorem IsNearest.exact {x : Float} {q : ℚ} (h : IsNearest x q) (hq : nearest q = q) (hlt : |q| < 2 ^ (1024 : ℤ)) :
    x.isFinite = true ∧ value x = q := by
  obtain ⟨hf, hv⟩ := h.of_lt (by rwa [hq])
  exact ⟨hf, hv.trans hq⟩

theorem Reduced.nearest_signed {m : ℕ} {e : ℤ} (h : Reduced m e) (s : Sign) :
    nearest (signed s (m * 2 ^ e)) = signed s (m * 2 ^ e) := by
  rw [Binary64.nearest_signed]
  congr 1
  refine nearest_eq_self (n := m) (by push_cast; rfl) ?_ h.le_exponent
  have hlt := h.mantissa_lt
  rw [abs_of_nonneg (by positivity)]
  exact_mod_cast hlt.le

theorem nearest_value (x : Float) : nearest (value x) = value x := by
  rcases eq_or_ne (value x) 0 with h | h
  · rw [h, nearest_zero]
  · obtain ⟨s, m, e, hm, hx, hreduced, -⟩ := parts_of_value_ne_zero h
    rw [value_of_parts hx]
    exact hreduced.nearest_signed s

theorem abs_value_lt (x : Float) : |value x| < 2 ^ (1024 : ℤ) := by
  rcases eq_or_ne (value x) 0 with h | h
  · rw [h, abs_zero]
    positivity
  · obtain ⟨s, m, e, hm, hx, hreduced, he⟩ := parts_of_value_ne_zero h
    rw [value_of_parts hx, abs_signed, abs_of_pos (finite_pos hm e)]
    exact hreduced.mul_lt.trans_le (zpow_le_zpow_right₀ one_le_two (by omega))

theorem isNearest_self {x : Float} (h : x.isFinite = true) : IsNearest x (value x) := by
  refine ⟨fun _ ↦ ⟨h, (nearest_value x).symm⟩, fun hle ↦ ?_⟩
  rw [nearest_value] at hle
  exact absurd (abs_value_lt x) hle.not_gt

theorem isNearest_add {x y : Float} (hx : x.isFinite = true) (hy : y.isFinite = true) :
    IsNearest (x + y) (value x + value y) := by
  have hparts : x + y = ofParts ((parts x).add .binary64 (parts y)) := rfl
  rcases parts_cases hx with ⟨s, hxp⟩ | ⟨s, m, e, hm, hxp, hr⟩
  · rw [value_of_parts_zero hxp, zero_add]
    rcases parts_cases hy with ⟨s', hyp⟩ | ⟨s', m', e', hm', hyp, hr'⟩
    · rw [value_of_parts_zero hyp]
      rw [hxp, hyp] at hparts
      cases s <;> cases s' <;> exact isNearest_of_parts_zero (hparts ▸ parts_ofParts (u := .zero _) trivial)
    · have hadd : (parts x).add .binary64 (parts y) = parts y := by
        rw [hxp, hyp]
        rfl
      rw [hparts, hadd, ofParts_parts]
      exact isNearest_self hy
  · rcases parts_cases hy with ⟨s', hyp⟩ | ⟨s', m', e', hm', hyp, hr'⟩
    · rw [value_of_parts_zero hyp, add_zero]
      have hadd : (parts x).add .binary64 (parts y) = parts x := by
        rw [hxp, hyp]
        rfl
      rw [hparts, hadd, ofParts_parts]
      exact isNearest_self hx
    · rw [hxp, hyp] at hparts
      rw [hparts, value_of_parts hxp, value_of_parts hyp, ← decreaseExponent_value s m (min_le_left e e'),
        ← decreaseExponent_value s' m' (min_le_right e e'), ← add_mul, ← Int.cast_add]
      exact isNearest_normalize _ _ _

theorem apply_neg (s : Sign) (n : ℤ) : (-s).apply n = -s.apply n := by
  cases s
  · exact (neg_neg n).symm
  · rfl

theorem sub_eq_add_opposite (u v : UnpackedFloat) : u.sub .binary64 v = u.add .binary64 v.neg := by
  cases u with
  | finite s m e hm =>
    cases v with
    | finite s' m' e' hm' =>
      unfold UnpackedFloat.sub UnpackedFloat.add UnpackedFloat.neg
      dsimp only
      rw [apply_neg, Int.sub_eq_add_neg]
    | infinity | notANumber | zero => rfl
  | infinity s => cases v <;> rfl
  | notANumber => cases v <;> rfl
  | zero s => cases v <;> rfl

theorem isNearest_sub {x y : Float} (hx : x.isFinite = true) (hy : y.isFinite = true) :
    IsNearest (x - y) (value x - value y) := by
  have hsub : x - y = x + -y := by
    change ofParts ((parts x).sub .binary64 (parts y)) = ofParts ((parts x).add .binary64 (parts (-y)))
    rw [parts_neg, sub_eq_add_opposite]
  rw [hsub, sub_eq_add_neg, ← value_neg]
  exact isNearest_add hx (isFinite_neg y ▸ hy)

theorem ofInt_exact {n : ℤ} (h : |n| ≤ 2 ^ 53) : (ofInt n).isFinite = true ∧ value (ofInt n) = n := by
  refine (isNearest_ofInt n).exact (nearest_eq_self (n := n) (e := 0) (by simp) h (by norm_num)) ?_
  have hcast : |(n : ℚ)| ≤ 2 ^ (53 : ℤ) := by exact_mod_cast h
  exact hcast.trans_lt (zpow_lt_zpow_right₀ one_lt_two (by norm_num))

theorem pow2_exact {e : ℤ} (he : -1074 ≤ e) (he' : e ≤ 1023) :
    (pow2 e).isFinite = true ∧ value (pow2 e) = 2 ^ e := by
  refine (isNearest_pow2 he).exact (nearest_zpow he) ?_
  rw [abs_of_pos (two_zpow_pos e)]
  exact zpow_lt_zpow_right₀ one_lt_two (by omega)

theorem isFinite_zero : (0 : Float).isFinite = true := by decide +kernel

theorem value_zero : value 0 = 0 := by
  have h : (0 : Float) = ofParts (.zero .positive) := by decide +kernel
  rw [h]
  exact value_of_parts_zero (parts_ofParts trivial)

theorem one_exact : (1 : Float).isFinite = true ∧ value 1 = 1 := by
  have h : (1 : Float) = ofInt 1 := by decide +kernel
  rw [h]
  exact ofInt_exact (n := 1) (by norm_num)

theorem roundWith_of_not_isFinite (r : Rounding) {x : Float} (h : x.isFinite = false) : roundWith r x = x := by
  have hf : (parts x).isFinite = false := h
  unfold roundWith
  split
  case h_1 heq =>
    rw [heq] at hf
    cases hf
  case h_2 => rfl

/-- Rounding to an integer is exact. -/
theorem roundWith_exact (r : Rounding) {x : Float} (h : x.isFinite = true) :
    (roundWith r x).isFinite = true ∧ value (roundWith r x) = r.round (value x) := by
  rcases parts_cases h with ⟨s, hx⟩ | ⟨s, m, e, hm, hx, hr⟩
  · have hround : roundWith r x = x := by
      unfold roundWith
      rw [hx]
    rw [hround, value_of_parts_zero hx]
    exact ⟨h, by exact_mod_cast (r.round_intCast 0).symm⟩
  · unfold roundWith
    rw [hx]
    dsimp only
    split
    case isTrue he =>
      obtain ⟨k, rfl⟩ := Int.eq_ofNat_of_zero_le he
      have hint : value x = ((s.apply m * 2 ^ k : ℤ) : ℚ) := by
        rw [value_of_parts hx]
        push_cast
        rw [signed_apply, signed_mul, zpow_natCast]
      exact ⟨h, by rw [hint, r.round_intCast]⟩
    case isFalse he =>
      have hk : (((-e).toNat : ℕ) : ℤ) = -e := Int.toNat_of_nonneg (by omega)
      have hshift : r.shiftRight (s.apply m) (-e).toNat = r.round (value x) := by
        rw [r.shiftRight_eq, signed_apply, ← zpow_natCast, hk, zpow_neg, div_inv_eq_mul, signed_mul, value_of_parts hx]
      rw [hshift]
      split
      case isTrue h0 =>
        have hparts := parts_ofParts (u := .zero s) trivial
        rw [h0, value_of_parts_zero hparts]
        refine ⟨?_, by simp⟩
        rw [isFinite_iff, hparts]
        rfl
      case isFalse =>
        refine ofInt_exact ?_
        have habs : |value x| ≤ 2 ^ 52 := by
          rw [value_of_parts hx, abs_signed, abs_of_pos (finite_pos hm e)]
          refine (hr.mul_lt.trans_le ?_).le
          rw [← zpow_natCast]
          exact zpow_le_zpow_right₀ one_le_two (by push_cast; omega)
        obtain ⟨hlo, hhi⟩ := abs_le.mp habs
        have hhi' := r.round_mono (q := ((2 ^ 52 : ℤ) : ℚ)) (by exact_mod_cast hhi)
        have hlo' := r.round_mono (p := ((-2 ^ 52 : ℤ) : ℚ)) (by push_cast; exact hlo)
        rw [r.round_intCast] at hhi' hlo'
        rw [abs_le]
        omega

end FixedNet.Binary64

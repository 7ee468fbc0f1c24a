import FixedNet.Binary64.Decimal
import FixedNet.Proofs.Binary64.Operations

namespace FixedNet.Binary64

open Float.Model (UnpackedFloat)
open Float.Model.UnpackedFloat (divCore roundWithAccuracy)

namespace Decimal

def value (d : Decimal) : ℚ := d.digits * 10 ^ d.exponent

end Decimal

theorem powersOfTen_eq : ∀ k : Fin 23, Float.exactlyRepresentablePowersOfTen[k] = ofInt (10 ^ (k : ℕ)) := by
  decide +kernel

theorem powersOfTen_exact (k : Fin 23) : Float.exactlyRepresentablePowersOfTen[k].isFinite = true ∧
    value Float.exactlyRepresentablePowersOfTen[k] = 10 ^ (k : ℕ) := by
  have hk : (k : ℕ) ≤ 22 := by omega
  have hodd : (5 : ℤ) ^ (k : ℕ) ≤ 2 ^ 53 := (pow_le_pow_right₀ (by norm_num) hk).trans (by norm_num)
  have hlt : (10 : ℚ) ^ (k : ℕ) < 2 ^ (1024 : ℤ) := by
    calc (10 : ℚ) ^ (k : ℕ) ≤ 10 ^ 22 := pow_le_pow_right₀ (by norm_num) hk
      _ < 2 ^ (74 : ℤ) := by norm_num
      _ ≤ 2 ^ (1024 : ℤ) := zpow_le_zpow_right₀ one_le_two (by norm_num)
  have hcast : ((10 ^ (k : ℕ) : ℤ) : ℚ) = 10 ^ (k : ℕ) := by push_cast; rfl
  have hexact : nearest ((10 : ℚ) ^ (k : ℕ)) = 10 ^ (k : ℕ) := by
    refine nearest_eq_self (n := 5 ^ (k : ℕ)) (e := (k : ℕ)) ?_ ?_ (by omega)
    · rw [zpow_natCast]
      push_cast
      rw [← mul_pow]
      norm_num
    · rwa [abs_of_pos (by positivity)]
  have h := (isNearest_ofInt (10 ^ (k : ℕ))).exact (by rw [hcast, hexact]) (by rwa [hcast, abs_of_pos (by positivity)])
  rw [powersOfTen_eq, ← hcast]
  exact h

theorem toUInt64_toFloat {n : ℕ} (h : n < 2 ^ 53) : n.toUInt64.toFloat = ofInt n := by
  have hmod : n.toUInt64.toNat = n := by
    rw [Nat.toUInt64, UInt64.toNat_ofNat']
    omega
  change ofInt (n.toUInt64.toNat : ℕ) = ofInt n
  rw [hmod]

theorem nearest_eq_zero_of_lt {q : ℚ} (h0 : 0 < q) (hq : q < 2 ^ (-1075 : ℤ)) : nearest q = 0 := by
  have hlog : Int.log 2 q < -1075 := (lt_zpow_iff h0).mp hq
  have hplace : lastPlace q = -1074 := by
    rw [lastPlace, abs_of_pos h0]
    omega
  have hhalf : q / 2 ^ (-1074 : ℤ) < 1 / 2 := by
    rw [div_lt_iff₀ (two_zpow_pos _)]
    refine hq.trans_eq ?_
    rw [show (-1075 : ℤ) = -1074 - 1 by norm_num, zpow_sub_one₀ two_ne_zero]
    ring
  have hpos : 0 < q / 2 ^ (-1074 : ℤ) := by positivity
  have hfloor : ⌊q / 2 ^ (-1074 : ℤ)⌋ = 0 := Int.floor_eq_zero_iff.mpr ⟨hpos.le, by linarith⟩
  have hfract : Int.fract (q / 2 ^ (-1074 : ℤ)) = q / 2 ^ (-1074 : ℤ) := by
    rw [Int.fract, hfloor, Int.cast_zero, sub_zero]
  rw [nearest, hplace, Rounding.nearestEven_of_lt (by rw [hfract]; linarith), hfloor, Int.cast_zero, zero_mul]

theorem isNearest_infinity {q : ℚ} (h : 2 ^ (1024 : ℤ) ≤ q) : IsNearest (ofParts (.infinity .positive)) q := by
  have hpos : 0 < q := (two_zpow_pos _).trans_le h
  have hle : 2 ^ (1024 : ℤ) ≤ nearest q := nearest_zpow (e := 1024) (by norm_num) ▸ nearest_mono h
  refine ⟨fun hlt ↦ ?_, fun _ ↦ ?_⟩
  · rw [abs_of_nonneg (nearest_nonneg hpos.le)] at hlt
    exact absurd hle hlt.not_ge
  · rw [if_neg hpos.le.not_gt]
    exact parts_ofParts trivial

theorem two_zpow_le_ten_zpow {e : ℤ} (h : 0 ≤ e) : (2 : ℚ) ^ e ≤ 10 ^ e :=
  zpow_le_zpow_left₀ h (by norm_num) (by norm_num)

theorem ten_zpow_le_two_zpow {e : ℤ} (h : e ≤ 0) : (10 : ℚ) ^ e ≤ 2 ^ e := by
  have hinv := inv_anti₀ (two_zpow_pos (-e)) (two_zpow_le_ten_zpow (e := -e) (by omega))
  rwa [zpow_neg, zpow_neg, inv_inv, inv_inv] at hinv

theorem isNearest_mul_ten_pow {m : ℕ} (hm : 0 < m) (k : ℕ) {h : 0 < m <<< 53} {h' : 0 < 10 ^ k} :
    IsNearest (ofParts ((UnpackedFloat.finite .positive (m <<< 53) (-53) h).mul .binary64
      (.finite .positive (10 ^ k) 0 h'))) (m * (10 : ℚ) ^ k) := by
  have hpos : 0 < m <<< 53 * 10 ^ k := Nat.mul_pos h h'
  have hvalue : (m : ℚ) * (10 : ℚ) ^ k = ((m <<< 53 * 10 ^ k : ℕ) : ℚ) * 2 ^ (-53 : ℤ) := by
    rw [Nat.shiftLeft_eq, zpow_neg, eq_mul_inv_iff_mul_eq₀ (two_zpow_pos 53).ne']
    push_cast
    ring
  have hlog : 53 ≤ (m <<< 53 * 10 ^ k).log2 := by
    rw [Nat.le_log2 hpos.ne', Nat.shiftLeft_eq]
    calc 2 ^ 53 = 1 * 2 ^ 53 * 1 := by norm_num
      _ ≤ m * 2 ^ 53 * 10 ^ k := by gcongr <;> omega
  rw [hvalue]
  refine isNearest_exact (s := .positive) hpos ?_
  rw [lastPlace_mul hpos]
  omega

theorem isNearest_div_ten_pow {m : ℕ} (hm : 0 < m) (k : ℕ) {h : 0 < 10 ^ k} :
    IsNearest (ofParts ((UnpackedFloat.finite .positive m 0 hm).div .binary64 (.finite .positive (10 ^ k) 0 h)))
      (m / (10 : ℚ) ^ k) := by
  have hdiv := @isNearest_divCore .positive m (10 ^ k) 0 0 hm h
  rw [zpow_zero, mul_one, mul_one, Nat.cast_pow, Nat.cast_ofNat] at hdiv
  exact hdiv

theorem isNearest_ofScientific {m : ℕ} (hm : 0 < m) (e : ℤ) :
    IsNearest (.ofModel (Float.Model.ofScientific m e)) (m * (10 : ℚ) ^ e) := by
  change IsNearest (ofParts (UnpackedFloat.ofScientific .binary64 m e)) _
  unfold UnpackedFloat.ofScientific
  have hbits : (2 : ℤ) ^ Float.Model.Format.binary64.exponentBits = 2048 := rfl
  have hm1 : (1 : ℚ) ≤ m := by exact_mod_cast hm
  have hten : (0 : ℚ) < 10 ^ e := by positivity
  rw [dif_neg hm.ne', hbits]
  split
  case isTrue hlarge =>
    refine isNearest_infinity ?_
    calc (2 : ℚ) ^ (1024 : ℤ) ≤ 2 ^ e := zpow_le_zpow_right₀ one_le_two (by omega)
      _ ≤ 10 ^ e := two_zpow_le_ten_zpow (by omega)
      _ ≤ m * 10 ^ e := le_mul_of_one_le_left hten.le hm1
  case isFalse =>
    split
    case isTrue hsmall =>
      refine isNearest_of_nearest_eq_zero (nearest_eq_zero_of_lt (by positivity) ?_) (parts_ofParts trivial)
      have hlog : (m : ℚ) < 2 ^ ((m.log2 : ℤ) + 1) := by exact_mod_cast Nat.lt_log2_self
      calc (m : ℚ) * (10 : ℚ) ^ e < 2 ^ ((m.log2 : ℤ) + 1) * 10 ^ e := mul_lt_mul_of_pos_right hlog hten
        _ ≤ 2 ^ ((m.log2 : ℤ) + 1) * 2 ^ e :=
          mul_le_mul_of_nonneg_left (ten_zpow_le_two_zpow (by omega)) (two_zpow_pos _).le
        _ = 2 ^ ((m.log2 : ℤ) + 1 + e) := (zpow_add₀ two_ne_zero _ _).symm
        _ ≤ 2 ^ (-1075 : ℤ) := zpow_le_zpow_right₀ one_le_two (by omega)
    case isFalse =>
      split
      case isTrue he =>
        have hpow : (10 : ℚ) ^ e = 10 ^ e.toNat := by rw [← zpow_natCast, Int.toNat_of_nonneg he]
        rw [hpow]
        exact isNearest_mul_ten_pow hm e.toNat
      case isFalse he =>
        have hpow : (10 : ℚ) ^ e = (10 ^ (-e).toNat)⁻¹ := by
          rw [← zpow_natCast, Int.toNat_of_nonneg (by omega), zpow_neg, inv_inv]
        rw [hpow, ← div_eq_mul_inv]
        exact isNearest_div_ten_pow hm (-e).toNat

theorem isNearest_toFloat {d : Decimal} (hd : 0 < d.digits) : IsNearest d.toFloat d.value := by
  have hneg : d.exponent < 0 → (10 : ℚ) ^ d.exponent = (10 ^ d.exponent.natAbs)⁻¹ := by
    intro he
    rw [← zpow_natCast, Int.ofNat_natAbs_of_nonpos he.le, zpow_neg, inv_inv]
  have hpos : ¬d.exponent < 0 → (10 : ℚ) ^ d.exponent = 10 ^ d.exponent.natAbs := by
    intro he
    rw [← zpow_natCast, Int.natAbs_of_nonneg (not_lt.mp he)]
  unfold Decimal.toFloat Float.ofScientific Decimal.value
  split
  case isTrue h =>
    obtain ⟨hf, hv⟩ := ofInt_exact (n := d.digits) (by rw [Nat.abs_cast]; exact_mod_cast h.1.le)
    rw [← toUInt64_toFloat h.1, Int.cast_natCast] at hv
    rw [← toUInt64_toFloat h.1] at hf
    obtain ⟨hfp, hvp⟩ := powersOfTen_exact ⟨d.exponent.natAbs, by omega⟩
    split
    case isTrue he =>
      have hdiv := isNearest_div hf hfp (by rw [hvp]; positivity)
      rw [hv, hvp] at hdiv
      rw [hneg (of_decide_eq_true he), ← div_eq_mul_inv]
      exact hdiv
    case isFalse he =>
      have hmul := isNearest_mul hf hfp
      rw [hv, hvp] at hmul
      rw [hpos (of_decide_eq_false (eq_false_of_ne_true he))]
      exact hmul
  case isFalse =>
    have he : (if decide (d.exponent < 0) = true then Int.negOfNat d.exponent.natAbs else
        Int.ofNat d.exponent.natAbs) = d.exponent := by
      split
      case isTrue he =>
        rw [decide_eq_true_eq] at he
        rw [Int.negOfNat_eq]
        change -(d.exponent.natAbs : ℤ) = _
        omega
      case isFalse he =>
        rw [decide_eq_true_eq] at he
        exact Int.natAbs_of_nonneg (not_lt.mp he)
    dsimp only
    rw [he]
    exact isNearest_ofScientific hd d.exponent

end FixedNet.Binary64

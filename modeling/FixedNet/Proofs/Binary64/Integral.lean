import FixedNet.Proofs.Binary64.Operations

namespace FixedNet

open Float.Model.UnpackedFloat (Sign)

theorem Rounding.round_of_abs_lt_half (r : Rounding) {q : ℚ} (h : |q| < 1 / 2) :
    r.round q = if r = down ∧ q < 0 then -1 else 0 := by
  have hzero : |q - (0 : ℤ)| < 1 / 2 := by simpa using h
  cases r with
  | down =>
    obtain ⟨hlo, hhi⟩ := abs_lt.mp h
    simp only [round, true_and]
    rw [Int.floor_eq_iff]
    split <;> push_cast <;> constructor <;> linarith
  | nearest =>
    have hselects : nearest.Selects q 0 := ⟨hzero.le, fun heq ↦ absurd heq hzero.ne⟩
    simpa using (selects_iff.mp hselects).symm
  | nearestEven =>
    have hselects : nearestEven.Selects q 0 := ⟨hzero.le, fun heq ↦ absurd heq hzero.ne⟩
    simpa using (selects_iff.mp hselects).symm

theorem Rounding.nearestEven_eq_zero_iff {q : ℚ} : nearestEven.round q = 0 ↔ |q| ≤ 1 / 2 := by
  rw [eq_comm, ← selects_iff]
  simp [Selects]

namespace Binary64

/-- Nothing is left of half the smallest number and of what is below. -/
theorem nearest_eq_zero_iff {q : ℚ} : nearest q = 0 ↔ |q| ≤ 2 ^ (-1075 : ℤ) := by
  have hpos := two_zpow_pos (lastPlace q)
  have hhalf : 1 / 2 * (2 : ℚ) ^ lastPlace q = 2 ^ (lastPlace q - 1) := by
    rw [zpow_sub_one₀ two_ne_zero]
    ring
  rw [nearest, mul_eq_zero_iff_right hpos.ne', Int.cast_eq_zero, Rounding.nearestEven_eq_zero_iff, abs_div,
    abs_of_pos hpos, div_le_iff₀ hpos, hhalf]
  rcases eq_or_ne q 0 with rfl | h0
  · simp [(two_zpow_pos _).le]
  · constructor
    · intro hle
      -- a number is larger than half its last place, except among the subnormals
      have hlog : Int.log 2 |q| ≤ lastPlace q - 1 :=
        (zpow_le_zpow_iff_right₀ one_lt_two).mp ((zpow_log_le (abs_pos.mpr h0)).trans hle)
      exact hle.trans (zpow_le_zpow_right₀ one_le_two (by rw [lastPlace] at hlog ⊢; omega))
    · intro hle
      exact hle.trans (zpow_le_zpow_right₀ one_le_two (by rw [lastPlace]; omega))

theorem abs_apply (s : Sign) (m : ℕ) : |(s.apply m : ℤ)| = m := by cases s <;> simp [Sign.apply]

theorem nearest_scaled_cases (x : Float) (k : ℤ) :
    nearest (value x * 2 ^ k) = value x * 2 ^ k ∨
      |value x * 2 ^ k| < 1 / 2 ∧ |nearest (value x * 2 ^ k)| < 1 / 2 := by
  rcases eq_or_ne (value x) 0 with h0 | h0
  · simp [h0]
  obtain ⟨s, m, e, hm, hx, hreduced, -⟩ := parts_of_value_ne_zero h0
  have hscaled : value x * 2 ^ k = (s.apply m : ℤ) * 2 ^ (e + k) := by
    rw [value_of_parts hx, signed_mul, mul_assoc, ← zpow_add₀ two_ne_zero, signed_apply, signed_mul]
  by_cases hk : -1074 ≤ e + k
  · have hlt := hreduced.mantissa_lt
    exact .inl (nearest_eq_self hscaled (by rw [abs_apply]; exact_mod_cast hlt.le) hk)
  · have hle : |value x * 2 ^ k| ≤ 2 ^ (-2 : ℤ) := by
      rw [abs_mul, abs_of_pos (two_zpow_pos k), value_of_parts hx, abs_signed, abs_of_pos (finite_pos hm e)]
      calc (m : ℚ) * 2 ^ e * 2 ^ k ≤ 2 ^ (e + 53) * 2 ^ k :=
            mul_le_mul_of_nonneg_right hreduced.mul_lt.le (two_zpow_pos k).le
        _ = 2 ^ (e + 53 + k) := (zpow_add₀ two_ne_zero _ _).symm
        _ ≤ 2 ^ (-2 : ℤ) := zpow_le_zpow_right₀ one_le_two (by omega)
    have hnearest : |nearest (value x * 2 ^ k)| ≤ 2 ^ (-2 : ℤ) := by
      rw [abs_nearest, ← nearest_zpow (e := -2) (by norm_num)]
      exact nearest_mono hle
    have hquarter : (2 : ℚ) ^ (-2 : ℤ) < 1 / 2 := by norm_num
    exact .inr ⟨hle.trans_lt hquarter, hnearest.trans_lt hquarter⟩

theorem nearest_nonpos {q : ℚ} (h : q ≤ 0) : nearest q ≤ 0 := nearest_zero ▸ nearest_mono h

theorem round_nearest_scaled_iff (r : Rounding) (x : Float) (k : ℤ) :
    r.round (nearest (value x * 2 ^ k)) = r.round (value x * 2 ^ k) ↔
      ¬ (r = .down ∧ value x < 0 ∧ nearest (value x * 2 ^ k) = 0) := by
  have hsign : value x * 2 ^ k < 0 ↔ value x < 0 := by
    simp [mul_neg_iff, two_zpow_pos, (two_zpow_pos k).le]
  rcases nearest_scaled_cases x k with hexact | ⟨hsmall, hsmall'⟩
  · rw [hexact]
    refine iff_of_true rfl ?_
    rintro ⟨-, hneg, h0⟩
    exact (hsign.mpr hneg).ne h0
  · simp only [r.round_of_abs_lt_half hsmall, r.round_of_abs_lt_half hsmall', hsign]
    have hneg : nearest (value x * 2 ^ k) < 0 → value x < 0 := by
      intro hlt
      by_contra! hge
      exact hlt.not_ge (nearest_nonneg (mul_nonneg hge (two_zpow_pos k).le))
    have hle : value x < 0 → nearest (value x * 2 ^ k) ≤ 0 := fun h ↦ nearest_nonpos (hsign.mpr h).le
    rcases lt_trichotomy (nearest (value x * 2 ^ k)) 0 with h | h | h
    · simp [h, hneg h, h.ne]
    · by_cases hr : r = .down <;> by_cases hx : value x < 0 <;> simp [h, hr, hx]
    · have hx : ¬ value x < 0 := fun hx ↦ h.not_ge (hle hx)
      simp [h.not_gt, hx]

theorem round_nearest_scaled (x : Float) (k : ℤ) :
    Rounding.nearestEven.round (nearest (value x * 2 ^ k)) = Rounding.nearestEven.round (value x * 2 ^ k) :=
  (round_nearest_scaled_iff .nearestEven x k).mpr fun h ↦ nomatch h.1

theorem intCast_eq_zero_of_abs_lt_half {n : ℤ} (h : |(n : ℚ)| < 1 / 2) : n = 0 := by
  have hlt : |(n : ℚ)| < 1 := by linarith
  exact Int.abs_lt_one_iff.mp (by exact_mod_cast hlt)

theorem exists_nearest_scaled_eq_intCast_iff (x : Float) (k : ℤ) :
    (∃ n : ℤ, nearest (value x * 2 ^ k) = n) ↔
      (∃ n : ℤ, value x * 2 ^ k = n) ∨ nearest (value x * 2 ^ k) = 0 := by
  rcases nearest_scaled_cases x k with hexact | ⟨hsmall, hsmall'⟩
  · rw [hexact]
    constructor
    · exact .inl
    · rintro (h | h)
      · exact h
      · exact ⟨0, by simpa using h⟩
  · constructor
    · intro ⟨n, hn⟩
      rw [hn] at hsmall'
      exact .inr (by simp [hn, intCast_eq_zero_of_abs_lt_half hsmall'])
    · rintro (⟨n, hn⟩ | h)
      · rw [hn] at hsmall
        exact ⟨0, by simp [hn, intCast_eq_zero_of_abs_lt_half hsmall]⟩
      · exact ⟨0, by simpa using h⟩

/-- The integer part of an integer. -/
theorem toInt_eq {x : Float} {n : ℤ} (hx : x.isFinite = true) (h : value x = n) : toInt x = n := by
  rcases parts_cases hx with ⟨s, hp⟩ | ⟨s, m, e, hm, hp, -⟩
  · rw [value_of_parts_zero hp] at h
    have h0 : n = 0 := by exact_mod_cast h.symm
    rw [h0, toInt, hp]
  · rw [value_of_parts hp] at h
    rw [toInt, hp]
    dsimp only
    have hcast : ((s.apply (if 0 ≤ e then m * 2 ^ e.toNat else m / 2 ^ (-e).toNat : ℕ) : ℤ) : ℚ) = n := by
      rw [signed_apply, ← h]
      congr 1
      split
      case isTrue he =>
        obtain ⟨k, rfl⟩ := Int.eq_ofNat_of_zero_le he
        push_cast
        rw [zpow_natCast]
        rfl
      case isFalse he =>
        obtain ⟨k, hk⟩ := Int.eq_ofNat_of_zero_le (a := -e) (by omega)
        have hmul : (m : ℚ) = n.natAbs * 2 ^ k := by
          have habs := congrArg abs h
          rw [abs_signed, abs_of_pos (finite_pos hm e), ← Int.cast_abs, Int.abs_eq_natAbs, Int.cast_natCast] at habs
          rw [← habs, mul_assoc, ← zpow_natCast, ← hk, ← zpow_add₀ two_ne_zero, add_neg_cancel, zpow_zero, mul_one]
        have hnat : m = n.natAbs * 2 ^ k := by exact_mod_cast hmul
        have hdiv : m / 2 ^ (-e).toNat = n.natAbs := by
          rw [hk, Int.toNat_natCast]
          conv_lhs => rw [hnat]
          exact Nat.mul_div_cancel _ (by positivity)
        have he' : e = -k := by omega
        rw [hdiv, hmul, he', zpow_neg, zpow_natCast, mul_assoc, mul_inv_cancel₀ (by positivity), mul_one]
    exact_mod_cast hcast

theorem trunc_of_parts_zero {x : Float} {s : Sign} (h : parts x = .zero s) : trunc x = x := by
  unfold trunc
  rw [h]

theorem value_trunc {x : Float} (hx : x.isFinite = true) :
    (trunc x).isFinite = true ∧ value (trunc x) = toInt x := by
  rcases parts_cases hx with ⟨s, hp⟩ | ⟨s, m, e, hm, hp, hr⟩
  · rw [trunc_of_parts_zero hp]
    exact ⟨hx, by simp [value_of_parts_zero hp, toInt, hp]⟩
  · unfold trunc toInt
    rw [hp]
    dsimp only
    split
    case isTrue he =>
      obtain ⟨k, rfl⟩ := Int.eq_ofNat_of_zero_le he
      refine ⟨hx, ?_⟩
      rw [value_of_parts hp, signed_apply]
      push_cast
      rw [zpow_natCast]
      rfl
    case isFalse he =>
      split
      case isTrue h0 =>
        have hparts := parts_ofParts (u := .zero s) trivial
        rw [isFinite_iff, hparts, value_of_parts_zero hparts, h0, signed_apply]
        cases s <;> exact ⟨rfl, by simp [signed]⟩
      case isFalse =>
        refine ofInt_exact ?_
        have hle : m / 2 ^ (-e).toNat ≤ m := Nat.div_le_self _ _
        have hlt := hr.mantissa_lt
        rw [abs_apply]
        exact_mod_cast hle.trans hlt.le

theorem beq_trunc_iff {x : Float} (hx : x.isFinite = true) : (x == trunc x) = true ↔ ∃ n : ℤ, value x = n := by
  obtain ⟨hf, hv⟩ := value_trunc hx
  rw [beq_iff hx hf, hv]
  constructor
  · exact fun h ↦ ⟨_, h⟩
  · rintro ⟨n, hn⟩
    rw [toInt_eq hx hn, hn]

theorem trunc_eq_self {x : Float} {n : ℤ} (hx : x.isFinite = true) (h : value x = n) : trunc x = x := by
  rcases parts_cases hx with ⟨s, hp⟩ | ⟨s, m, e, hm, hp, -⟩
  · exact trunc_of_parts_zero hp
  · have hne : value x ≠ 0 := by
      rw [value_of_parts hp, ← abs_ne_zero, abs_signed]
      exact abs_ne_zero.mpr (finite_pos hm e).ne'
    exact (eq_of_value_eq hne (by rw [(value_trunc hx).2, toInt_eq hx h, h])).symm

end Binary64

end FixedNet

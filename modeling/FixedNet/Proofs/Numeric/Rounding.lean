import Mathlib
import FixedNet.Numeric.Rounding

namespace FixedNet.Rounding

def round : Rounding → ℚ → ℤ
  | down, q => ⌊q⌋
  | nearest, q => if 0 ≤ q then ⌊q + 1 / 2⌋ else ⌈q - 1 / 2⌉
  | nearestEven, q => if 2 * Int.fract q = 1 then ⌊q⌋ + ⌊q⌋ % 2 else ⌊q + 1 / 2⌋

theorem floor_div_two_pow (n : ℤ) (k : ℕ) : ⌊(n : ℚ) / 2 ^ k⌋ = n / 2 ^ k := by
  have h := Rat.floor_intCast_div_natCast n (2 ^ k)
  push_cast at h
  exact h

theorem fract_div_two_pow (n : ℤ) (k : ℕ) : Int.fract ((n : ℚ) / 2 ^ k) = (n % 2 ^ k : ℤ) / 2 ^ k := by
  have hp : (2 : ℚ) ^ k ≠ 0 := by positivity
  have h : (n : ℚ) = (2 ^ k : ℤ) * (n / 2 ^ k : ℤ) + (n % 2 ^ k : ℤ) := by
    exact_mod_cast (Int.mul_ediv_add_emod n (2 ^ k)).symm
  rw [Int.fract, floor_div_two_pow]
  push_cast at h ⊢
  field_simp
  linarith

theorem floor_add_half (q : ℚ) : ⌊q + 1 / 2⌋ = if 1 ≤ 2 * Int.fract q then ⌊q⌋ + 1 else ⌊q⌋ := by
  have h0 := Int.fract_nonneg q
  have h1 := Int.fract_lt_one q
  have hq := Int.floor_add_fract q
  split
  · rw [Int.floor_eq_iff]
    push_cast
    constructor <;> linarith
  · rw [Int.floor_eq_iff]
    constructor <;> linarith

theorem ceil_sub_half (q : ℚ) : ⌈q - 1 / 2⌉ = if 1 < 2 * Int.fract q then ⌊q⌋ + 1 else ⌊q⌋ := by
  have h0 := Int.fract_nonneg q
  have h1 := Int.fract_lt_one q
  have hq := Int.floor_add_fract q
  split
  · rw [Int.ceil_eq_iff]
    push_cast
    constructor <;> linarith
  · rw [Int.ceil_eq_iff]
    constructor <;> linarith

theorem nearestEven_of_lt {q : ℚ} (h : 2 * Int.fract q < 1) : nearestEven.round q = ⌊q⌋ := by
  simp only [round, floor_add_half, h.ne, h.not_ge, if_false]

theorem nearestEven_of_eq {q : ℚ} (h : 2 * Int.fract q = 1) : nearestEven.round q = ⌊q⌋ + ⌊q⌋ % 2 := by
  simp only [round, h, if_true]

theorem nearestEven_of_gt {q : ℚ} (h : 1 < 2 * Int.fract q) : nearestEven.round q = ⌊q⌋ + 1 := by
  simp only [round, floor_add_half, h.ne', h.le, if_true, if_false]

theorem round_of_lt (r : Rounding) {q : ℚ} (h : 2 * Int.fract q < 1) : r.round q = ⌊q⌋ := by
  cases r with
  | down => rfl
  | nearest => simp only [round, floor_add_half, ceil_sub_half, h.not_ge, h.not_gt, if_false, ite_self]
  | nearestEven => exact nearestEven_of_lt h

theorem round_of_gt {r : Rounding} (hr : r ≠ down) {q : ℚ} (h : 1 < 2 * Int.fract q) : r.round q = ⌊q⌋ + 1 := by
  cases r with
  | down => exact absurd rfl hr
  | nearest => simp only [round, floor_add_half, ceil_sub_half, h, h.le, if_true, ite_self]
  | nearestEven => exact nearestEven_of_gt h

theorem nearest_of_eq {q : ℚ} (h : 2 * Int.fract q = 1) : nearest.round q = if 0 ≤ q then ⌊q⌋ + 1 else ⌊q⌋ := by
  simp only [round, floor_add_half, ceil_sub_half, h, le_refl, lt_irrefl, if_true, if_false]

theorem round_eq_floor_or (r : Rounding) (q : ℚ) : r.round q = ⌊q⌋ ∨ r.round q = ⌊q⌋ + 1 := by
  cases r with
  | down => exact .inl rfl
  | nearest =>
    simp only [round, floor_add_half, ceil_sub_half]
    split_ifs <;> simp
  | nearestEven =>
    simp only [round, floor_add_half]
    have h := Int.emod_two_eq_zero_or_one ⌊q⌋
    split_ifs <;> omega

theorem round_intCast (r : Rounding) (n : ℤ) : r.round n = n := by
  cases r with
  | down => exact Int.floor_intCast n
  | nearest =>
    simp only [round, floor_add_half, ceil_sub_half, Int.fract_intCast, Int.floor_intCast]
    norm_num
  | nearestEven =>
    simp only [round, floor_add_half, Int.fract_intCast, Int.floor_intCast]
    norm_num

theorem round_mono (r : Rounding) {p q : ℚ} (h : p ≤ q) : r.round p ≤ r.round q := by
  have hfloor := Int.floor_mono h
  rcases hfloor.lt_or_eq with hlt | heq
  · -- a whole unit lies between them
    have hp := r.round_eq_floor_or p
    have hq := r.round_eq_floor_or q
    omega
  · have hfract : Int.fract p ≤ Int.fract q := by
      simp only [Int.fract, heq]
      linarith
    have hsign : 0 ≤ p → 0 ≤ q := fun hp ↦ hp.trans h
    have hm := Int.emod_two_eq_zero_or_one ⌊q⌋
    cases r with
    | down => exact hfloor
    | nearest =>
      simp only [round, floor_add_half, ceil_sub_half, heq]
      split_ifs <;> first | omega | linarith
    | nearestEven =>
      rcases lt_trichotomy (2 * Int.fract p) 1 with hp | hp | hp
      · have h' := nearestEven.round_eq_floor_or q
        rw [nearestEven_of_lt hp]
        omega
      · rcases lt_trichotomy (2 * Int.fract q) 1 with hq | hq | hq
        · linarith
        · rw [nearestEven_of_eq hp, nearestEven_of_eq hq, heq]
        · rw [nearestEven_of_eq hp, nearestEven_of_gt hq]
          omega
      · rw [nearestEven_of_gt hp, nearestEven_of_gt (by linarith), heq]

theorem abs_round_nearestEven_sub_le (q : ℚ) : |(nearestEven.round q : ℚ) - q| ≤ 1 / 2 := by
  have h0 := Int.fract_nonneg q
  have h1 := Int.fract_lt_one q
  have hq := Int.floor_add_fract q
  simp only [round, floor_add_half]
  rw [abs_le]
  rcases Int.emod_two_eq_zero_or_one ⌊q⌋ with hm | hm <;> rw [hm] <;> split_ifs <;> push_cast <;>
    constructor <;> linarith

theorem round_eq_of_log2_lt (r : Rounding) {n : ℤ} {k : ℕ} (h : n.natAbs.log2 + 1 < k) :
    r.round ((n : ℚ) / 2 ^ k) = if r = down ∧ n < 0 then -1 else 0 := by
  have hlt : n.natAbs < 2 ^ (k - 1) := by
    calc n.natAbs < 2 ^ (n.natAbs.log2 + 1) := Nat.lt_log2_self
      _ ≤ 2 ^ (k - 1) := Nat.pow_le_pow_right (by norm_num) (by omega)
  have hp : (2 : ℚ) ^ k = 2 * 2 ^ (k - 1) := by
    rw [← pow_succ', Nat.sub_add_cancel (by omega)]
  have hpos : (0 : ℚ) < 2 ^ (k - 1) := by positivity
  have habs : |(n : ℚ)| < 2 ^ (k - 1) := by
    rw [← Int.cast_abs, ← Int.natCast_natAbs]
    exact_mod_cast hlt
  obtain ⟨hlo, hhi⟩ := abs_lt.mp habs
  have hq : -(1 / 2) < (n : ℚ) / 2 ^ k ∧ (n : ℚ) / 2 ^ k < 1 / 2 := by
    rw [hp]
    constructor
    · rw [lt_div_iff₀ (by positivity)]; linarith
    · rw [div_lt_iff₀ (by positivity)]; linarith
  have hsign : (0 : ℚ) ≤ (n : ℚ) / 2 ^ k ↔ 0 ≤ n := by
    rw [le_div_iff₀ (by positivity), zero_mul]
    exact_mod_cast Iff.rfl
  have hfloor : ⌊(n : ℚ) / 2 ^ k⌋ = if n < 0 then -1 else 0 := by
    rw [Int.floor_eq_iff]
    split
    · have : (n : ℚ) / 2 ^ k < 0 := by
        rw [← not_le, hsign]; omega
      push_cast; constructor <;> linarith
    · have : (0 : ℚ) ≤ (n : ℚ) / 2 ^ k := hsign.mpr (by omega)
      push_cast; constructor <;> linarith
  have hf := Int.floor_add_fract ((n : ℚ) / 2 ^ k)
  rw [hfloor] at hf
  cases r with
  | down => simpa [round] using hfloor
  | nearest =>
    simp only [round, floor_add_half, ceil_sub_half, hfloor, reduceCtorEq, false_and, if_false]
    by_cases hn : n < 0 <;> simp only [hn, if_true, if_false] at hf ⊢ <;> push_cast at hf <;>
      split_ifs <;> first | rfl | linarith
  | nearestEven =>
    simp only [round, floor_add_half, hfloor, reduceCtorEq, false_and, if_false]
    by_cases hn : n < 0 <;> simp only [hn, if_true, if_false] at hf ⊢ <;> push_cast at hf <;>
      split_ifs <;> first | rfl | linarith

theorem two_mul_fract_div (n : ℤ) (k : ℕ) :
    (2 * (n % 2 ^ k) < 2 ^ k → 2 * Int.fract ((n : ℚ) / 2 ^ k) < 1) ∧
    (2 * (n % 2 ^ k) = 2 ^ k → 2 * Int.fract ((n : ℚ) / 2 ^ k) = 1) ∧
    (2 ^ k < 2 * (n % 2 ^ k) → 1 < 2 * Int.fract ((n : ℚ) / 2 ^ k)) := by
  have hpos : (0 : ℚ) < 2 ^ k := by positivity
  rw [fract_div_two_pow, ← mul_div_assoc, div_lt_iff₀ hpos, div_eq_iff hpos.ne', lt_div_iff₀ hpos, one_mul]
  refine ⟨?_, ?_, ?_⟩ <;> norm_cast <;> exact id

theorem div_two_pow_nonneg {n : ℤ} {k : ℕ} : (0 : ℚ) ≤ (n : ℚ) / 2 ^ k ↔ 0 ≤ n := by
  rw [le_div_iff₀ (by positivity), zero_mul]
  exact_mod_cast Iff.rfl

/-- Shifting right rounds the quotient by the power of two. -/
theorem shiftRight_eq (r : Rounding) (n : ℤ) (k : ℕ) : r.shiftRight n k = r.round ((n : ℚ) / 2 ^ k) := by
  unfold shiftRight
  split
  case isTrue h =>
    rw [r.round_eq_of_log2_lt h]
    cases r <;> simp
  case isFalse =>
    obtain ⟨hlt, heq, hgt⟩ := two_mul_fract_div n k
    have hfloor := floor_div_two_pow n k
    rcases lt_trichotomy (2 * (n % 2 ^ k)) (2 ^ k) with h | h | h
    · rw [r.round_of_lt (hlt h), hfloor, compare_lt_iff_lt.mpr h]
      cases r <;> rfl
    · rw [compare_eq_iff_eq.mpr h]
      cases r with
      | down => exact hfloor.symm
      | nearest => simp only [nearest_of_eq (heq h), hfloor, div_two_pow_nonneg]
      | nearestEven =>
        rw [nearestEven_of_eq (heq h), hfloor]
        rcases Int.emod_two_eq_zero_or_one (n / 2 ^ k) with hm | hm <;> simp [hm]
    · rw [compare_gt_iff_gt.mpr h]
      cases r with
      | down => exact hfloor.symm
      | nearest => rw [round_of_gt (by decide : nearest ≠ down) (hgt h), hfloor]
      | nearestEven => rw [round_of_gt (by decide : nearestEven ≠ down) (hgt h), hfloor]

/-- The integer `n` is the one a mode selects for `q`, read off the distance between them and, where two integers are
equally near, off the rule for ties. -/
def Selects : Rounding → ℚ → ℤ → Prop
  | down, q, n => n ≤ q ∧ q < n + 1
  | nearest, q, n => |q - n| ≤ 1 / 2 ∧ (|q - n| = 1 / 2 → |q| < |(n : ℚ)|)
  | nearestEven, q, n => |q - n| ≤ 1 / 2 ∧ (|q - n| = 1 / 2 → Even n)

theorem eq_or_halfway {q : ℚ} {m n : ℤ} (hm : |q - m| ≤ 1 / 2) (hn : |q - n| ≤ 1 / 2) :
    m = n ∨ (n = m + 1 ∧ q = m + 1 / 2) ∨ (m = n + 1 ∧ q = n + 1 / 2) := by
  rw [abs_le] at hm hn
  have h₁ : (m : ℚ) ≤ n + 1 := by linarith
  have h₂ : (n : ℚ) ≤ m + 1 := by linarith
  norm_cast at h₁ h₂
  obtain h | h | h : m = n ∨ n = m + 1 ∨ m = n + 1 := by omega
  · exact .inl h
  · refine .inr (.inl ⟨h, ?_⟩)
    subst h
    push_cast at hn
    linarith
  · refine .inr (.inr ⟨h, ?_⟩)
    subst h
    push_cast at hm
    linarith

theorem not_selects_both (r : Rounding) (m : ℤ) :
    ¬ (r.Selects (m + 1 / 2) m ∧ r.Selects (m + 1 / 2) (m + 1 : ℤ)) := by
  have hlo : |(m : ℚ) + 1 / 2 - m| = 1 / 2 := by
    rw [add_sub_cancel_left]
    norm_num
  have hhi : |(m : ℚ) + 1 / 2 - (m + 1 : ℤ)| = 1 / 2 := by
    push_cast
    rw [add_sub_add_left_eq_sub]
    norm_num
  rintro ⟨h, h'⟩
  cases r with
  | down =>
    have := h'.1
    push_cast at this
    linarith
  | nearest =>
    -- the selected one is farther from zero, and both cannot be
    have h₁ := h.2 hlo
    have h₂ := h'.2 hhi
    push_cast at h₂
    rcases le_or_gt 0 m with hm | hm
    · have hm' : (0 : ℚ) ≤ m := by exact_mod_cast hm
      rw [abs_of_nonneg hm', abs_of_nonneg (by linarith)] at h₁
      linarith
    · have hm' : (m : ℚ) + 1 ≤ 0 := by exact_mod_cast hm
      rw [abs_of_nonpos hm', abs_of_nonpos (by linarith)] at h₂
      linarith
  | nearestEven =>
    have h₁ := h.2 hlo
    have h₂ := h'.2 hhi
    rw [Int.even_add_one] at h₂
    exact h₂ h₁

theorem Selects.within {r : Rounding} {q : ℚ} {n : ℤ} (h : r.Selects q n) (hr : r ≠ down) : |q - n| ≤ 1 / 2 := by
  cases r with
  | down => exact absurd rfl hr
  | nearest => exact h.1
  | nearestEven => exact h.1

theorem Selects.eq {r : Rounding} {q : ℚ} {m n : ℤ} (hm : r.Selects q m) (hn : r.Selects q n) : m = n := by
  by_cases hr : r = down
  · subst hr
    rw [← Int.floor_eq_iff.mpr hm, ← Int.floor_eq_iff.mpr hn]
  · rcases eq_or_halfway (hm.within hr) (hn.within hr) with h | ⟨rfl, rfl⟩ | ⟨rfl, rfl⟩
    · exact h
    · exact absurd ⟨hm, hn⟩ (r.not_selects_both m)
    · exact absurd ⟨hn, hm⟩ (r.not_selects_both n)

theorem abs_sub_floor (q : ℚ) : |q - ⌊q⌋| = Int.fract q := abs_of_nonneg (Int.fract_nonneg q)

theorem abs_sub_floor_add_one (q : ℚ) : |q - (⌊q⌋ + 1 : ℤ)| = 1 - Int.fract q := by
  have h1 := Int.fract_lt_one q
  have hq := Int.floor_add_fract q
  rw [abs_of_nonpos (by push_cast; linarith)]
  push_cast
  linarith

theorem selects_round (r : Rounding) (q : ℚ) : r.Selects q (r.round q) := by
  have hlo := abs_sub_floor q
  have hhi := abs_sub_floor_add_one q
  cases r with
  | down => exact ⟨Int.floor_le q, Int.lt_floor_add_one q⟩
  | nearest =>
    have hfloor := Int.floor_le q
    have hceil := Int.lt_floor_add_one q
    simp only [Selects, round, floor_add_half, ceil_sub_half]
    split_ifs with h0 h h
    · refine ⟨by linarith, fun _ ↦ ?_⟩
      push_cast
      rwa [abs_of_nonneg h0, abs_of_nonneg (by linarith)]
    · exact ⟨by linarith, fun ht ↦ by linarith⟩
    · exact ⟨by linarith, fun ht ↦ by linarith⟩
    · refine ⟨by linarith, fun ht ↦ ?_⟩
      rw [abs_of_neg (by linarith), abs_of_neg (by linarith)]
      linarith [Int.floor_add_fract q]
  | nearestEven =>
    refine ⟨by rw [abs_sub_comm]; exact abs_round_nearestEven_sub_le q, fun ht ↦ ?_⟩
    rcases nearestEven.round_eq_floor_or q with h | h <;> rw [h] at ht <;>
      rw [nearestEven_of_eq (by linarith), Int.even_iff] <;> omega

/-- Rounding gives the one integer that the mode selects. -/
theorem selects_iff {r : Rounding} {q : ℚ} {n : ℤ} : r.Selects q n ↔ n = r.round q := by
  constructor
  · intro h
    exact h.eq (r.selects_round q)
  · rintro rfl
    exact r.selects_round q

end FixedNet.Rounding

import FixedNet.Proofs.Numeric.Rounding

namespace FixedNet

theorem Rounding.nearestEven_neg (q : ℚ) : nearestEven.round (-q) = -nearestEven.round q := by
  have hq := Int.floor_add_fract q
  have h0 := Int.fract_nonneg q
  have h1 := Int.fract_lt_one q
  rcases eq_or_ne (Int.fract q) 0 with hf | hf
  · obtain ⟨n, rfl⟩ : ∃ n : ℤ, (n : ℚ) = q := ⟨⌊q⌋, by linarith⟩
    rw [← Int.cast_neg, round_intCast, round_intCast]
  · have hpos : 0 < Int.fract q := lt_of_le_of_ne h0 hf.symm
    have hneg : ⌊-q⌋ = -⌊q⌋ - 1 := by
      rw [Int.floor_eq_iff]
      push_cast
      constructor <;> linarith
    have hfract : Int.fract (-q) = 1 - Int.fract q := Int.fract_neg hf
    rcases lt_trichotomy (2 * Int.fract q) 1 with h | h | h
    · rw [nearestEven_of_lt h, nearestEven_of_gt (by rw [hfract]; linarith), hneg]
      ring
    · rw [nearestEven_of_eq h, nearestEven_of_eq (by rw [hfract]; linarith), hneg]
      omega
    · rw [nearestEven_of_gt h, nearestEven_of_lt (by rw [hfract]; linarith), hneg]
      ring

namespace Binary64

/-- The exponent of the last place of a number of the magnitude of `q`, not below that of the subnormals. -/
def lastPlace (q : ℚ) : ℤ := max (Int.log 2 |q| - 52) (-1074)

/-- The multiple of the last place nearest to `q`, a tie to the even one. -/
def nearest (q : ℚ) : ℚ := Rounding.nearestEven.round (q / 2 ^ lastPlace q) * 2 ^ lastPlace q

theorem two_zpow_pos (e : ℤ) : (0 : ℚ) < 2 ^ e := by positivity

theorem zpow_log_le {q : ℚ} (h : 0 < q) : (2 : ℚ) ^ Int.log 2 q ≤ q := by
  exact_mod_cast Int.zpow_log_le_self (b := 2) (by norm_num) h

theorem lt_zpow_log (q : ℚ) : q < 2 ^ (Int.log 2 q + 1) := by
  exact_mod_cast Int.lt_zpow_succ_log_self (b := 2) (by norm_num) q

theorem zpow_le_iff {q : ℚ} (h : 0 < q) {e : ℤ} : (2 : ℚ) ^ e ≤ q ↔ e ≤ Int.log 2 q := by
  exact_mod_cast Int.zpow_le_iff_le_log (b := 2) (by norm_num) h

theorem lt_zpow_iff {q : ℚ} (h : 0 < q) {e : ℤ} : q < 2 ^ e ↔ Int.log 2 q < e := by
  exact_mod_cast Int.lt_zpow_iff_log_lt (b := 2) (by norm_num) h

theorem log_eq {q : ℚ} (h : 0 < q) {e : ℤ} (hlo : 2 ^ e ≤ q) (hhi : q < 2 ^ (e + 1)) : Int.log 2 q = e := by
  have hlo := (zpow_le_iff h).mp hlo
  have hhi := (lt_zpow_iff h).mp hhi
  omega

theorem log_mul_zpow {q : ℚ} (h : 0 < q) (k : ℤ) : Int.log 2 (q * 2 ^ k) = Int.log 2 q + k := by
  refine log_eq (by positivity) ?_ ?_
  · rw [zpow_add₀ two_ne_zero]
    exact mul_le_mul_of_nonneg_right (zpow_log_le h) (two_zpow_pos k).le
  · rw [add_right_comm, zpow_add₀ two_ne_zero]
    exact mul_lt_mul_of_pos_right (lt_zpow_log q) (two_zpow_pos k)

@[simp]
theorem nearest_zero : nearest 0 = 0 := by
  have h := Rounding.nearestEven.round_intCast 0
  rw [Int.cast_zero] at h
  simp [nearest, h]

@[simp]
theorem lastPlace_neg (q : ℚ) : lastPlace (-q) = lastPlace q := by rw [lastPlace, abs_neg, lastPlace]

theorem nearest_neg (q : ℚ) : nearest (-q) = -nearest q := by
  rw [nearest, lastPlace_neg, neg_div, Rounding.nearestEven_neg, Int.cast_neg, neg_mul, nearest]

theorem lastPlace_le {q : ℚ} {e : ℤ} (h0 : q ≠ 0) (hq : |q| < 2 ^ (e + 53)) (he : -1074 ≤ e) : lastPlace q ≤ e := by
  have h := (lt_zpow_iff (abs_pos.mpr h0)).mp hq
  rw [lastPlace]
  omega

theorem grid_div_eq {q : ℚ} {n e : ℤ} (he : lastPlace q ≤ e) :
    (n : ℚ) * 2 ^ e / 2 ^ lastPlace q = ((n * 2 ^ (e - lastPlace q).toNat : ℤ) : ℚ) := by
  have hk : ((e - lastPlace q).toNat : ℤ) = e - lastPlace q := Int.toNat_of_nonneg (by omega)
  rw [div_eq_iff (two_zpow_pos _).ne']
  push_cast
  rw [mul_assoc, ← zpow_natCast, hk, ← zpow_add₀ two_ne_zero, sub_add_cancel]

theorem nearest_le_of_grid {q : ℚ} {n e : ℤ} (hq : q ≤ n * 2 ^ e) (he : lastPlace q ≤ e) : nearest q ≤ n * 2 ^ e := by
  have hp := two_zpow_pos (lastPlace q)
  have hle := Rounding.nearestEven.round_mono (div_le_div_of_nonneg_right hq hp.le)
  rw [grid_div_eq he, Rounding.round_intCast] at hle
  rw [nearest, ← le_div_iff₀ hp, grid_div_eq he]
  exact_mod_cast hle

theorem grid_le_nearest {q : ℚ} {n e : ℤ} (hq : n * 2 ^ e ≤ q) (he : lastPlace q ≤ e) : n * 2 ^ e ≤ nearest q := by
  have hp := two_zpow_pos (lastPlace q)
  have hle := Rounding.nearestEven.round_mono (div_le_div_of_nonneg_right hq hp.le)
  rw [grid_div_eq he, Rounding.round_intCast] at hle
  rw [nearest, ← div_le_iff₀ hp, grid_div_eq he]
  exact_mod_cast hle

theorem nearest_eq_of_grid {q : ℚ} {n e : ℤ} (hq : q = n * 2 ^ e) (he : lastPlace q ≤ e) : nearest q = q :=
  le_antisymm ((nearest_le_of_grid hq.le he).trans hq.ge) (hq.le.trans (grid_le_nearest hq.ge he))

/-- Numbers of at most 53 bits are kept. -/
theorem nearest_eq_self {q : ℚ} {n e : ℤ} (hq : q = n * 2 ^ e) (hn : |n| ≤ 2 ^ 53) (he : -1074 ≤ e) :
    nearest q = q := by
  rcases eq_or_ne q 0 with rfl | h0
  · exact nearest_zero
  have habs : |q| = (|n| : ℤ) * 2 ^ e := by rw [hq, abs_mul, abs_of_pos (two_zpow_pos e), Int.cast_abs]
  have hcast : ((|n| : ℤ) : ℚ) ≤ 2 ^ 53 := by exact_mod_cast hn
  rcases hn.lt_or_eq with hlt | heq
  · refine nearest_eq_of_grid hq (lastPlace_le h0 ?_ he)
    have hcast : ((|n| : ℤ) : ℚ) < 2 ^ (53 : ℤ) := by exact_mod_cast hlt
    rw [habs, add_comm, zpow_add₀ two_ne_zero]
    exact mul_lt_mul_of_pos_right hcast (two_zpow_pos e)
  · -- the 54th bit of the numerator is its only one
    obtain ⟨k, hk⟩ : ∃ k, n = k * 2 := by
      rcases abs_choice n with h | h
      · exact ⟨2 ^ 52, by omega⟩
      · exact ⟨-2 ^ 52, by omega⟩
    refine nearest_eq_of_grid (n := k) (e := e + 1) ?_ (lastPlace_le h0 ?_ (by omega))
    · rw [hq, hk, zpow_add_one₀ two_ne_zero]
      push_cast
      ring
    · rw [habs, add_right_comm, zpow_add_one₀ two_ne_zero, add_comm e, zpow_add₀ two_ne_zero]
      have hpos := two_zpow_pos e
      have h53 : ((|n| : ℤ) : ℚ) * 2 ^ e ≤ 2 ^ (53 : ℤ) * 2 ^ e := mul_le_mul_of_nonneg_right hcast hpos.le
      have hprod : (0 : ℚ) < 2 ^ (53 : ℤ) * 2 ^ e := by positivity
      linarith

theorem nearest_nonneg {q : ℚ} (h : 0 ≤ q) : 0 ≤ nearest q := by
  have h := grid_le_nearest (n := 0) (e := lastPlace q) (by simpa using h) le_rfl
  simpa using h

theorem nearest_mono_of_pos {p q : ℚ} (hp : 0 < p) (h : p ≤ q) : nearest p ≤ nearest q := by
  have hq := hp.trans_le h
  have hlog := Int.log_mono_right (b := 2) hp h
  have hplace : lastPlace p ≤ lastPlace q := by
    rw [lastPlace, lastPlace, abs_of_pos hp, abs_of_pos hq]
    omega
  rcases hplace.lt_or_eq with hlt | heq
  · -- a power of two lies between them
    have hpq : lastPlace q = Int.log 2 q - 52 ∧ Int.log 2 p < Int.log 2 q := by
      rw [lastPlace, lastPlace, abs_of_pos hp, abs_of_pos hq] at hlt
      rw [lastPlace, abs_of_pos hq]
      omega
    have hp' : p ≤ (1 : ℤ) * 2 ^ Int.log 2 q := by
      rw [Int.cast_one, one_mul]
      exact ((lt_zpow_iff hp).mpr hpq.2).le
    have hq' : (1 : ℤ) * 2 ^ Int.log 2 q ≤ q := by
      rw [Int.cast_one, one_mul]
      exact zpow_log_le hq
    exact (nearest_le_of_grid hp' (by omega)).trans (grid_le_nearest hq' (by omega))
  · have hpos := two_zpow_pos (lastPlace q)
    rw [nearest, nearest, heq]
    refine mul_le_mul_of_nonneg_right ?_ hpos.le
    exact_mod_cast Rounding.nearestEven.round_mono (div_le_div_of_nonneg_right h hpos.le)

theorem nearest_mono {p q : ℚ} (h : p ≤ q) : nearest p ≤ nearest q := by
  rcases lt_or_ge 0 p with hp | hp
  · exact nearest_mono_of_pos hp h
  have hp' : nearest p ≤ 0 := by
    have := nearest_nonneg (neg_nonneg.mpr hp)
    rw [nearest_neg] at this
    linarith
  rcases lt_or_ge q 0 with hq | hq
  · have := nearest_mono_of_pos (neg_pos.mpr hq) (neg_le_neg h)
    rw [nearest_neg, nearest_neg] at this
    linarith
  · exact hp'.trans (nearest_nonneg hq)

theorem abs_nearest (q : ℚ) : |nearest q| = nearest |q| := by
  rcases abs_cases q with ⟨h, hq⟩ | ⟨h, hq⟩
  · rw [h, abs_of_nonneg (nearest_nonneg hq)]
  · rw [h, nearest_neg, abs_of_nonpos]
    have := nearest_nonneg (neg_nonneg.mpr hq.le)
    rw [nearest_neg] at this
    linarith

theorem nearest_zpow {e : ℤ} (he : -1074 ≤ e) : nearest (2 ^ e) = 2 ^ e :=
  nearest_eq_self (n := 1) (by rw [Int.cast_one, one_mul]) (by norm_num) he

theorem nearest_pos {q : ℚ} (h : 2 ^ (-1074 : ℤ) ≤ q) : 0 < nearest q :=
  (two_zpow_pos _).trans_le (nearest_zpow le_rfl ▸ nearest_mono h)

/-- Away from the subnormals only the exponent moves. -/
theorem nearest_mul_zpow {q : ℚ} (h0 : q ≠ 0) {k : ℤ} (hq : -1022 ≤ Int.log 2 |q|) (hk : -1022 ≤ Int.log 2 |q| + k) :
    nearest (q * 2 ^ k) = nearest q * 2 ^ k := by
  have habs : |q * 2 ^ k| = |q| * 2 ^ k := by rw [abs_mul, abs_of_pos (two_zpow_pos k)]
  have hplace : lastPlace (q * 2 ^ k) = lastPlace q + k := by
    rw [lastPlace, habs, log_mul_zpow (abs_pos.mpr h0), lastPlace]
    omega
  rw [nearest, hplace, zpow_add₀ two_ne_zero, mul_div_mul_right _ _ (two_zpow_pos k).ne', nearest, mul_assoc]

end Binary64

end FixedNet

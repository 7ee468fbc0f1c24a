import FixedNet.Proofs.Binary64.Scientific

namespace FixedNet

theorem Rounding.nearestEven_of_near {q : ℚ} {n : ℤ} (h : |q - n| < 1 / 2 ∨ |q - n| = 1 / 2 ∧ n % 2 = 0) :
    nearestEven.round q = n := by
  have hle : |q - n| ≤ 1 / 2 := h.elim le_of_lt fun h ↦ h.1.le
  obtain ⟨hlo, hhi⟩ := abs_le.mp hle
  rcases le_or_gt (n : ℚ) q with hq | hq
  · have hfloor : ⌊q⌋ = n := Int.floor_eq_iff.mpr ⟨hq, by linarith⟩
    have hfract : Int.fract q = q - n := by rw [Int.fract, hfloor]
    rw [abs_of_nonneg (sub_nonneg.mpr hq)] at h
    rcases h with h | ⟨h, heven⟩
    · rw [nearestEven_of_lt (by rw [hfract]; linarith), hfloor]
    · rw [nearestEven_of_eq (by rw [hfract, h]; norm_num), hfloor, heven, add_zero]
  · have hfloor : ⌊q⌋ = n - 1 := by
      rw [Int.floor_eq_iff]
      push_cast
      constructor <;> linarith
    have hfract : Int.fract q = q - n + 1 := by
      rw [Int.fract, hfloor]
      push_cast
      ring
    rw [abs_of_neg (sub_neg.mpr hq)] at h
    rcases h with h | ⟨h, heven⟩
    · rw [nearestEven_of_gt (by rw [hfract]; linarith), hfloor, sub_add_cancel]
    · rw [nearestEven_of_eq (by rw [hfract]; linarith), hfloor]
      omega

namespace Binary64

variable {m : ℕ} {e : ℤ} {q : ℚ}

theorem Reduced.nearest_of_near {r : ℚ} (h : Reduced m e) (hm : 0 < m) (hlo : m ≠ 2 ^ 52 ∨ e = -1074 ∨ (m : ℚ) ≤ r)
    (hnear : |r - m| < 1 / 2 ∨ |r - m| = 1 / 2 ∧ m % 2 = 0) : nearest (r * 2 ^ e) = m * 2 ^ e := by
  have hle : |r - m| ≤ 1 / 2 := hnear.elim le_of_lt fun h ↦ h.1.le
  obtain ⟨hbelow, habove⟩ := abs_le.mp hle
  have hm1 : (1 : ℚ) ≤ m := by exact_mod_cast hm
  have hpos : 0 < r := by linarith
  have hupper : Int.log 2 r < 53 := by
    have hmantissa : (m : ℚ) + 1 ≤ 2 ^ (53 : ℤ) := by exact_mod_cast h.mantissa_lt
    exact (lt_zpow_iff hpos).mp (by linarith)
  have hlower : e = -1074 ∨ 52 ≤ Int.log 2 r := by
    rcases eq_or_ne e (-1074) with he | he
    · exact .inl he
    have hlead := h.leading.resolve_right he
    refine .inr ((zpow_le_iff hpos).mp ?_)
    rcases hlo with hne | he' | hr
    · have hnext : (2 : ℚ) ^ (52 : ℤ) + 1 ≤ m := by exact_mod_cast lt_of_le_of_ne hlead (Ne.symm hne)
      linarith
    · exact absurd he' he
    · have hcast : (2 : ℚ) ^ (52 : ℤ) ≤ m := by exact_mod_cast hlead
      exact hcast.trans hr
  have hplace : lastPlace (r * 2 ^ e) = e := by
    have hexponent := h.le_exponent
    rw [lastPlace, abs_of_pos (by positivity), log_mul_zpow hpos]
    omega
  have hround : Rounding.nearestEven.round r = m := by
    refine Rounding.nearestEven_of_near ?_
    rw [Int.cast_natCast]
    exact hnear.imp_right (And.imp_right fun heven ↦ by omega)
  rw [nearest, hplace, mul_div_cancel_right₀ _ (two_zpow_pos e).ne', hround, Int.cast_natCast]

theorem nearest_below_power {r : ℚ} (he : -1074 < e) (hlo : 2 ^ 52 - 1 / 4 ≤ r) (hhi : r < 2 ^ 52) :
    nearest (r * 2 ^ e) = 2 ^ 52 * 2 ^ e := by
  have hpos : 0 < r := lt_of_lt_of_le (by norm_num) hlo
  have hlog : Int.log 2 r = 51 := by
    refine log_eq hpos ?_ ?_
    · norm_num at hlo ⊢
      linarith
    · norm_num at hhi ⊢
      exact hhi
  have hplace : lastPlace (r * 2 ^ e) = e - 1 := by
    rw [lastPlace, abs_of_pos (by positivity), log_mul_zpow hpos, hlog]
    omega
  have hdiv : r * 2 ^ e / 2 ^ (e - 1) = 2 * r := by
    rw [zpow_sub_one₀ two_ne_zero]
    field_simp
  have hround : Rounding.nearestEven.round (2 * r) = (2 ^ 53 : ℤ) := by
    refine Rounding.nearestEven_of_near ?_
    have habs : |2 * r - ((2 ^ 53 : ℤ) : ℚ)| = 2 ^ 53 - 2 * r := by
      push_cast
      rw [abs_of_neg (by linarith), neg_sub]
      norm_num
    rw [habs]
    rcases hlo.lt_or_eq with hlt | heq
    · exact .inl (by linarith)
    · exact .inr ⟨by linarith, by norm_num⟩
  rw [nearest, hplace, hdiv, hround, zpow_sub_one₀ two_ne_zero]
  push_cast
  ring

theorem zpow_eq_div {b : ℚ} (hb : b ≠ 0) (k : ℤ) : b ^ k = b ^ k.toNat / b ^ (-k).toNat := by
  rw [← zpow_natCast, ← zpow_natCast, ← zpow_sub₀ hb]
  congr 1
  omega

namespace Interval

variable {i : Interval} {d : ℕ} {k : ℤ}

def lower (i : Interval) : ℚ := i.low / i.den

def middle (i : Interval) : ℚ := i.mid / i.den

def upper (i : Interval) : ℚ := i.high / i.den

theorem div_le_iff_mul_le {n den : ℕ} (hden : 0 < den) :
    (n : ℚ) / den ≤ (⟨d, k⟩ : Decimal).value ↔ n * 10 ^ (-k).toNat ≤ d * 10 ^ k.toNat * den := by
  have hden' : (0 : ℚ) < den := by exact_mod_cast hden
  have hunit : (0 : ℚ) < 10 ^ (-k).toNat := by positivity
  rw [Decimal.value, zpow_eq_div (by norm_num), ← mul_div_assoc, div_le_div_iff₀ hden' hunit]
  norm_cast

theorem le_div_iff_le_mul {n den : ℕ} (hden : 0 < den) :
    (⟨d, k⟩ : Decimal).value ≤ (n : ℚ) / den ↔ d * 10 ^ k.toNat * den ≤ n * 10 ^ (-k).toNat := by
  have hden' : (0 : ℚ) < den := by exact_mod_cast hden
  have hunit : (0 : ℚ) < 10 ^ (-k).toNat := by positivity
  rw [Decimal.value, zpow_eq_div (by norm_num), ← mul_div_assoc, div_le_div_iff₀ hunit hden']
  norm_cast

theorem contains_iff (hden : 0 < i.den) : i.contains d k = true ↔
    (i.lower < (⟨d, k⟩ : Decimal).value ∨ i.closed = true ∧ i.lower = (⟨d, k⟩ : Decimal).value) ∧
      ((⟨d, k⟩ : Decimal).value < i.upper ∨ i.closed = true ∧ (⟨d, k⟩ : Decimal).value = i.upper) := by
  unfold contains lower upper
  dsimp only
  split
  case isTrue hclosed =>
    rw [Bool.and_eq_true, decide_eq_true_eq, decide_eq_true_eq, ← div_le_iff_mul_le hden, ← le_div_iff_le_mul hden]
    simp only [hclosed, true_and, le_iff_lt_or_eq]
  case isFalse hclosed =>
    rw [Bool.and_eq_true, decide_eq_true_eq, decide_eq_true_eq, ← not_le, ← not_le, ← div_le_iff_mul_le hden,
      ← le_div_iff_le_mul hden, not_le, not_le]
    simp only [hclosed, false_and, or_false, Bool.false_eq_true]

theorem contains_of_onGrid {p : Decimal} (h : i.onGrid k = some p) : i.contains p.digits p.exponent = true := by
  unfold onGrid at h
  dsimp only at h
  split at h
  case h_1 hd hd' =>
    cases h
    dsimp only
    split
    · exact hd
    · exact hd'
  case h_2 hd _ =>
    cases h
    exact hd
  case h_3 _ hd' =>
    cases h
    exact hd'
  case h_4 => cases h

theorem isSome_onGrid (hden : 0 < i.den) (hlower : i.lower < i.middle) (hfine : i.middle + 10 ^ k < i.upper) :
    (i.onGrid k).isSome = true := by
  let step := 10 ^ k.toNat * i.den
  let mid := i.mid * 10 ^ (-k).toNat
  have hstep : 0 < step := by positivity
  have hbelow : (⟨mid / step, k⟩ : Decimal).value ≤ i.middle := by
    rw [middle, le_div_iff_le_mul hden, mul_assoc]
    exact Nat.div_mul_le_self mid step
  have habove : i.middle < (⟨mid / step + 1, k⟩ : Decimal).value := by
    rw [← not_le, middle, le_div_iff_le_mul hden, not_le, mul_assoc]
    exact (Nat.div_lt_iff_lt_mul hstep).mp (Nat.lt_succ_self _)
  have hnext : (⟨mid / step + 1, k⟩ : Decimal).value = (⟨mid / step, k⟩ : Decimal).value + 10 ^ k := by
    rw [Decimal.value, Decimal.value]
    push_cast
    ring
  have hcontains : i.contains (mid / step + 1) k = true :=
    (contains_iff hden).mpr ⟨.inl (hlower.trans habove), .inl (by rw [hnext]; linarith)⟩
  unfold onGrid
  dsimp only
  rw [hcontains]
  cases i.contains (mid / step) k <;> rfl

end Interval

theorem quarters_eq (n : ℕ) (e : ℤ) :
    ((n * 2 ^ (e - 2).toNat : ℕ) : ℚ) / (2 ^ (2 - e).toNat : ℕ) = n / 4 * 2 ^ e := by
  have hpow : (2 : ℚ) ^ e = 2 ^ (e - 2) * 4 := by
    rw [zpow_sub₀ two_ne_zero]
    norm_num
  rw [hpow, zpow_eq_div two_ne_zero, neg_sub]
  push_cast
  ring

theorem interval_den_pos (m : ℕ) (e : ℤ) : 0 < (interval m e).den := by
  change 0 < 2 ^ (2 - e).toNat
  positivity

theorem interval_middle (m : ℕ) (e : ℤ) : (interval m e).middle = m * 2 ^ e := by
  refine (quarters_eq (4 * m) e).trans ?_
  push_cast
  ring

theorem interval_upper (m : ℕ) (e : ℤ) : (interval m e).upper = (m + 1 / 2) * 2 ^ e := by
  refine (quarters_eq (4 * m + 2) e).trans ?_
  push_cast
  ring

theorem interval_lower (hm : 0 < m) (e : ℤ) :
    (interval m e).lower = (m - if m = 2 ^ 52 ∧ -1074 < e then 1 / 4 else 1 / 2) * 2 ^ e := by
  refine (quarters_eq (4 * m - if m = 2 ^ 52 ∧ -1074 < e then 1 else 2) e).trans ?_
  split <;> rw [Nat.cast_sub (by omega)] <;> push_cast <;> ring

theorem interval_closed (m : ℕ) (e : ℤ) : (interval m e).closed = true ↔ m % 2 = 0 := decide_eq_true_iff

theorem nearest_of_contains {d : Decimal} (h : Reduced m e) (hm : 0 < m)
    (hd : (interval m e).contains d.digits d.exponent = true) : nearest d.value = m * 2 ^ e := by
  have hp := two_zpow_pos e
  rw [Interval.contains_iff (interval_den_pos m e), interval_closed, interval_lower hm, interval_upper] at hd
  obtain ⟨r, hr⟩ : ∃ r, d.value = r * 2 ^ e := ⟨d.value / 2 ^ e, (div_mul_cancel₀ _ hp.ne').symm⟩
  change (_ < d.value ∨ _ ∧ _ = d.value) ∧ (d.value < _ ∨ _ ∧ d.value = _) at hd
  rw [hr, mul_lt_mul_iff_left₀ hp, mul_lt_mul_iff_left₀ hp, mul_left_inj' hp.ne', mul_left_inj' hp.ne'] at hd
  obtain ⟨hlower, hupper⟩ := hd
  rw [hr]
  have hnear (hlower : (m : ℚ) - 1 / 2 < r ∨ m % 2 = 0 ∧ (m : ℚ) - 1 / 2 = r) :
      |r - m| < 1 / 2 ∨ |r - m| = 1 / 2 ∧ m % 2 = 0 := by
    rcases hlower with hlo | ⟨heven, hlo⟩
    · rcases hupper with hhi | ⟨heven, hhi⟩
      · exact .inl (abs_lt.mpr ⟨by linarith, by linarith⟩)
      · exact .inr ⟨by rw [hhi, add_sub_cancel_left]; norm_num, heven⟩
    · exact .inr ⟨by rw [← hlo, sub_sub_cancel_left]; norm_num, heven⟩
  by_cases hpower : m = 2 ^ 52 ∧ -1074 < e
  · rw [if_pos hpower] at hlower
    obtain ⟨rfl, he⟩ := hpower
    push_cast at hlower
    rcases lt_or_ge r (2 ^ 52) with hr | hr
    · have hlo : 2 ^ 52 - 1 / 4 ≤ r := hlower.elim le_of_lt fun h ↦ h.2.le
      rw [nearest_below_power he hlo hr]
      norm_cast
    · refine h.nearest_of_near hm (.inr (.inr (by exact_mod_cast hr))) (hnear (.inl ?_))
      push_cast
      linarith
  · rw [if_neg hpower] at hlower
    have hexponent := h.le_exponent
    refine h.nearest_of_near hm ?_ (hnear hlower)
    by_cases hm52 : m = 2 ^ 52
    · exact .inr (.inl (le_antisymm (not_lt.mp fun he ↦ hpower ⟨hm52, he⟩) hexponent))
    · exact .inl hm52

theorem Interval.ten_zpow_lt_upper {i : Interval} (hhigh : 0 < i.high) (hden : 0 < i.den) :
    (10 : ℚ) ^ ((Nat.toDigits 10 i.high).length - (Nat.toDigits 10 i.den).length - 1 : ℤ) < i.upper := by
  have hden' : (0 : ℚ) < i.den := by exact_mod_cast hden
  have hlength : 0 < (Nat.toDigits 10 i.high).length := Nat.length_toDigits_pos
  have hupper : i.den < 10 ^ (Nat.toDigits 10 i.den).length :=
    (Nat.length_toDigits_le_iff (by norm_num) Nat.length_toDigits_pos).mp le_rfl
  have hlower : 10 ^ ((Nat.toDigits 10 i.high).length - 1) ≤ i.high := by
    rcases Nat.eq_zero_or_pos ((Nat.toDigits 10 i.high).length - 1) with h | h
    · rw [h]
      exact hhigh
    · rw [← not_lt, ← Nat.length_toDigits_le_iff (by norm_num) h]
      omega
  have hlower' : (10 : ℚ) ^ ((Nat.toDigits 10 i.high).length - 1) ≤ i.high := by exact_mod_cast hlower
  have hupper' : (i.den : ℚ) < 10 ^ (Nat.toDigits 10 i.den).length := by exact_mod_cast hupper
  have hexponent : ((Nat.toDigits 10 i.high).length - (Nat.toDigits 10 i.den).length - 1 : ℤ) =
      ((Nat.toDigits 10 i.high).length - 1 : ℕ) - (Nat.toDigits 10 i.den).length := by omega
  rw [hexponent, zpow_sub₀ (by norm_num), zpow_natCast, zpow_natCast, upper]
  calc (10 : ℚ) ^ ((Nat.toDigits 10 i.high).length - 1) / 10 ^ (Nat.toDigits 10 i.den).length
      < 10 ^ ((Nat.toDigits 10 i.high).length - 1) / i.den := div_lt_div_of_pos_left (by positivity) hden' hupper'
    _ ≤ i.high / i.den := div_le_div_of_nonneg_right hlower' hden'.le

theorem shortest_contained (h : Reduced m e) (hm : 0 < m) :
    (interval m e).contains (interval m e).shortest.digits (interval m e).shortest.exponent = true := by
  have hp := two_zpow_pos e
  have hden := interval_den_pos m e
  have hhigh : 0 < (interval m e).high := by
    change 0 < (4 * m + 2) * 2 ^ (e - 2).toNat
    positivity
  generalize htop : ((Nat.toDigits 10 (interval m e).high).length - (Nat.toDigits 10 (interval m e).den).length + 1 : ℤ)
    = top
  have hbound := Interval.ten_zpow_lt_upper hhigh hden
  rw [show ((Nat.toDigits 10 (interval m e).high).length - (Nat.toDigits 10 (interval m e).den).length - 1 : ℤ)
    = (top - 19) + 17 by omega, zpow_add₀ (by norm_num), interval_upper] at hbound
  have hmantissa : (m : ℚ) + 1 ≤ 2 ^ 53 := by exact_mod_cast h.mantissa_lt
  have hfine : (10 : ℚ) ^ (top - 19) < 1 / 2 * 2 ^ e := by
    have hlt : (10 : ℚ) ^ (top - 19) * 10 ^ (17 : ℤ) < 2 ^ 53 * 2 ^ e :=
      hbound.trans_le (mul_le_mul_of_nonneg_right (by linarith) hp.le)
    norm_num at hlt ⊢
    linarith
  have hsome : ((interval m e).onGrid (top - 19)).isSome = true := by
    refine Interval.isSome_onGrid hden ?_ ?_
    · rw [interval_lower hm, interval_middle]
      refine mul_lt_mul_of_pos_right (sub_lt_self _ ?_) hp
      split <;> norm_num
    · rw [interval_middle, interval_upper]
      linarith
  have hfind : ((List.range 22).findSome? fun j : ℕ ↦ (interval m e).onGrid (top - j)).isSome = true := by
    rw [List.findSome?_isSome_iff]
    exact ⟨19, List.mem_range.mpr (by norm_num), hsome⟩
  obtain ⟨p, hfind⟩ := Option.isSome_iff_exists.mp hfind
  obtain ⟨j, -, hgrid⟩ := List.exists_of_findSome?_eq_some hfind
  have hshortest : (interval m e).shortest = p := by
    unfold Interval.shortest
    dsimp only
    rw [htop, hfind, Option.getD_some]
  rw [hshortest]
  exact Interval.contains_of_onGrid hgrid

end Binary64

end FixedNet

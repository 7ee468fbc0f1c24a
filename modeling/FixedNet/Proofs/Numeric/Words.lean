import FixedNet.Proofs.Numeric.Narrow

namespace FixedNet

theorem checkWord_of_fits {n : ℤ} (h : FitsWord n) : checkWord n = some n := if_pos h

theorem fitsWord_two_pow {k : ℕ} (h : k < 127) : FitsWord (2 ^ k) := by
  have hpos : (0 : ℤ) < 2 ^ k := by positivity
  exact ⟨by omega, pow_lt_pow_right₀ one_lt_two h⟩

theorem Format.InRange.fitsWord {f : Format} {n : ℤ} (h : f.InRange n) : FitsWord n := by
  have := h.bounds
  exact ⟨by omega, by omega⟩

def checkUnsigned (n : ℤ) : Option ℤ := if 0 ≤ n ∧ n < 2 ^ 128 then some n else none

theorem checkUnsigned_two_pow {k : ℕ} (h : k < 128) : checkUnsigned (2 ^ k) = some (2 ^ k) :=
  if_pos ⟨by positivity, pow_lt_pow_right₀ one_lt_two h⟩

/-- Scaling up. The outer option is the fault of a step, the inner one the answer that the word is too small. -/
def scaleUpWord (raw : ℤ) (shift : ℕ) : Option (Option ℤ) :=
  if raw = 0 then some (some 0)
  else if 127 ≤ shift then some none
  else do
    let power ← checkWord (2 ^ shift)
    return checkWord (raw * power)

theorem scaleUpWord_eq (raw : ℤ) (shift : ℕ) : scaleUpWord raw shift = some (scaleUp raw shift) := by
  unfold scaleUpWord scaleUp
  split
  · rfl
  · split
    · rfl
    · rw [checkWord_of_fits (fitsWord_two_pow (by omega))]
      rfl

namespace Rounding

/-- Shifting right by 128 bits or more, where only the least word is as far as a half from zero. -/
def shiftRightFar (r : Rounding) (raw : ℤ) (shift : ℕ) : ℤ :=
  match r with
  | down => if raw < 0 then -1 else 0
  | nearest => if raw = -(2 ^ 127) ∧ shift = 128 then -1 else 0
  | nearestEven => 0

/-- Shifting right within the word. The bits shifted out are read off the word taken as an unsigned one. -/
def shiftRightNear (r : Rounding) (raw : ℤ) (shift : ℕ) : Option ℤ := do
  let floor := raw / 2 ^ shift
  let power ← checkUnsigned (2 ^ shift)
  let rest := raw % 2 ^ 128 % power
  let half ← checkUnsigned (2 ^ (shift - 1))
  match r with
  | down => return floor
  | nearest => if half < rest ∨ rest = half ∧ 0 ≤ raw then checkWord (floor + 1) else return floor
  | nearestEven => if half < rest ∨ rest = half ∧ floor % 2 = 1 then checkWord (floor + 1) else return floor

def shiftRightWord (r : Rounding) (raw : ℤ) (shift : ℕ) : Option ℤ :=
  if shift = 0 then some raw
  else if 128 ≤ shift then some (r.shiftRightFar raw shift)
  else r.shiftRightNear raw shift

theorem word_div_bounds {raw : ℤ} (hraw : FitsWord raw) {k : ℕ} (hk : 128 ≤ k) :
    -(1 / 2) ≤ (raw : ℚ) / 2 ^ k ∧ (raw : ℚ) / 2 ^ k < 1 / 2 ∧
      ((raw : ℚ) / 2 ^ k = -(1 / 2) ↔ raw = -(2 ^ 127) ∧ k = 128) := by
  obtain ⟨j, rfl⟩ : ∃ j, k = j + 1 := ⟨k - 1, by omega⟩
  have hpos : (0 : ℚ) < 2 ^ (j + 1) := by positivity
  have hword : (2 : ℤ) ^ 127 ≤ 2 ^ j := pow_le_pow_right₀ (by norm_num) (by omega)
  obtain ⟨hlo, hhi⟩ := hraw
  have hhalf : ((2 : ℚ) ^ (j + 1)) / 2 = (2 ^ j : ℤ) := by
    rw [pow_succ]
    push_cast
    ring
  refine ⟨?_, ?_, ?_⟩
  · rw [le_div_iff₀ hpos]
    have : (-(2 ^ j : ℤ) : ℚ) ≤ raw := by exact_mod_cast (by omega : -(2 ^ j : ℤ) ≤ raw)
    linarith
  · rw [div_lt_iff₀ hpos]
    have : (raw : ℚ) < (2 ^ j : ℤ) := by exact_mod_cast (by omega : raw < (2 ^ j : ℤ))
    linarith
  · have heq : (raw : ℚ) / 2 ^ (j + 1) = -(1 / 2) ↔ raw = -(2 ^ j : ℤ) := by
      rw [div_eq_iff hpos.ne', ← @Int.cast_inj ℚ]
      push_cast at hhalf ⊢
      constructor <;> intro h <;> linarith
    rw [heq]
    constructor
    · rintro rfl
      have hle : (2 : ℤ) ^ j ≤ 2 ^ 127 := by omega
      have hj := (pow_le_pow_iff_right₀ (by norm_num : (1 : ℤ) < 2)).mp hle
      obtain rfl : j = 127 := by omega
      exact ⟨rfl, rfl⟩
    · rintro ⟨rfl, hj⟩
      obtain rfl : j = 127 := by omega
      rfl

theorem shiftRightFar_eq (r : Rounding) {raw : ℤ} (hraw : FitsWord raw) {k : ℕ} (hk : 128 ≤ k) :
    r.shiftRightFar raw k = r.round ((raw : ℚ) / 2 ^ k) := by
  obtain ⟨hlo, hhi, htie⟩ := word_div_bounds hraw hk
  rw [← selects_iff]
  cases r with
  | down =>
    have hsign := @div_two_pow_nonneg raw k
    rw [shiftRightFar]
    split
    case isTrue h =>
      have hneg := (not_iff_not.mpr hsign).mpr (by omega)
      exact ⟨by push_cast; linarith, by push_cast; linarith⟩
    case isFalse h =>
      have hnonneg := hsign.mpr (by omega)
      exact ⟨by push_cast; linarith, by push_cast; linarith⟩
  | nearest =>
    rw [shiftRightFar]
    split
    case isTrue h =>
      rw [htie.mpr h]
      norm_num [Selects, abs_of_neg]
    case isFalse h =>
      have hne := (not_iff_not.mpr htie).mpr h
      have hlt : |(raw : ℚ) / 2 ^ k - (0 : ℤ)| < 1 / 2 := by
        rw [Int.cast_zero, sub_zero, abs_lt]
        exact ⟨lt_of_le_of_ne hlo (Ne.symm hne), hhi⟩
      exact ⟨hlt.le, fun ht ↦ absurd ht hlt.ne⟩
  | nearestEven =>
    refine ⟨?_, fun _ ↦ Even.zero⟩
    rw [shiftRightFar, Int.cast_zero, sub_zero, abs_le]
    exact ⟨hlo, hhi.le⟩

theorem fitsWord_div_add_one {raw : ℤ} (hraw : FitsWord raw) (j : ℕ) : FitsWord (raw / 2 ^ (j + 1) + 1) := by
  have hle : |raw / 2 / 2 ^ j| ≤ |raw / 2| := Int.abs_ediv_le_abs _ _
  obtain ⟨hlo, hhi⟩ := hraw
  have habs : |raw / 2| ≤ 2 ^ 126 := abs_le.mpr ⟨by omega, by omega⟩
  obtain ⟨h₁, h₂⟩ := abs_le.mp (hle.trans habs)
  rw [pow_succ', ← Int.ediv_ediv_of_nonneg (by norm_num)]
  exact ⟨by omega, by omega⟩

theorem shiftRightNear_eq (r : Rounding) {raw : ℤ} (hraw : FitsWord raw) {k : ℕ} (hpos : 0 < k) (hk : k < 128) :
    r.shiftRightNear raw k = some (r.round ((raw : ℚ) / 2 ^ k)) := by
  obtain ⟨j, rfl⟩ : ∃ j, k = j + 1 := ⟨k - 1, by omega⟩
  obtain ⟨hlt, heq, hgt⟩ := two_mul_fract_div raw (j + 1)
  have hfloor := floor_div_two_pow raw (j + 1)
  have hrest : raw % 2 ^ 128 % 2 ^ (j + 1) = raw % 2 ^ (j + 1) :=
    Int.emod_emod_of_dvd raw (pow_dvd_pow 2 (by omega))
  have hnext := checkWord_of_fits (fitsWord_div_add_one hraw j)
  have hpow : (2 : ℤ) ^ (j + 1) = 2 * 2 ^ j := pow_succ' 2 j
  simp only [shiftRightNear, checkUnsigned_two_pow hk, Nat.add_sub_cancel, checkUnsigned_two_pow (by omega : j < 128),
    Option.bind_eq_bind, Option.bind_some, hrest, hnext]
  cases r with
  | down => simp only [round, hfloor, Option.pure_def]
  | nearest =>
    rcases lt_trichotomy (raw % 2 ^ (j + 1)) (2 ^ j) with h | h | h
    · rw [round_of_lt _ (hlt (by omega)), hfloor]
      simp [h.not_gt, h.ne]
    · simp only [nearest_of_eq (heq (by omega)), hfloor, div_two_pow_nonneg, h, lt_irrefl, false_or, true_and]
      split <;> rfl
    · rw [round_of_gt (by decide : nearest ≠ down) (hgt (by omega)), hfloor]
      simp [h]
  | nearestEven =>
    rcases lt_trichotomy (raw % 2 ^ (j + 1)) (2 ^ j) with h | h | h
    · rw [round_of_lt _ (hlt (by omega)), hfloor]
      simp [h.not_gt, h.ne]
    · simp only [nearestEven_of_eq (heq (by omega)), hfloor, h, lt_irrefl, false_or, true_and]
      rcases Int.emod_two_eq_zero_or_one (raw / 2 ^ (j + 1)) with hm | hm <;> simp [hm]
    · rw [round_of_gt (by decide : nearestEven ≠ down) (hgt (by omega)), hfloor]
      simp [h]

theorem shiftRightWord_eq (r : Rounding) {raw : ℤ} (hraw : FitsWord raw) (k : ℕ) :
    r.shiftRightWord raw k = some (r.shiftRight raw k) := by
  rw [shiftRight_eq]
  unfold shiftRightWord
  split_ifs with h0 hk
  · subst h0
    rw [pow_zero, div_one, round_intCast]
  · rw [r.shiftRightFar_eq hraw hk]
  · exact r.shiftRightNear_eq hraw (by omega) (by omega)

theorem fitsWord_shiftRight (r : Rounding) {raw : ℤ} (hraw : FitsWord raw) (k : ℕ) : FitsWord (r.shiftRight raw k) := by
  have hpow : (1 : ℚ) ≤ 2 ^ k := one_le_pow₀ one_le_two
  have hpos : (0 : ℚ) < 2 ^ k := by positivity
  obtain ⟨hlo, hhi⟩ := hraw
  have hmin : ((-(2 ^ 127) : ℤ) : ℚ) ≤ raw / 2 ^ k := by
    have hraw : ((-(2 ^ 127) : ℤ) : ℚ) ≤ raw := by exact_mod_cast hlo
    rw [le_div_iff₀ hpos]
    push_cast at hraw ⊢
    nlinarith
  have hmax : (raw : ℚ) / 2 ^ k ≤ ((2 ^ 127 - 1 : ℤ) : ℚ) := by
    have hraw : (raw : ℚ) ≤ ((2 ^ 127 - 1 : ℤ) : ℚ) := by exact_mod_cast (by omega : raw ≤ 2 ^ 127 - 1)
    rw [div_le_iff₀ hpos]
    push_cast at hraw ⊢
    nlinarith
  have hle := r.round_mono hmin
  have hge := r.round_mono hmax
  rw [round_intCast] at hle hge
  rw [shiftRight_eq]
  exact ⟨hle, by omega⟩

/-- Shifting right rounds as its mode says, for every word and every shift: it gives the one integer that the mode
selects for the quotient. The machine that shifts never leaves its word on the way there. -/
theorem shiftRight_selects (r : Rounding) {raw : ℤ} (hraw : FitsWord raw) (shift : ℕ) :
    (∀ n, r.Selects ((raw : ℚ) / 2 ^ shift) n ↔ n = r.shiftRight raw shift) ∧
      r.shiftRightWord raw shift = some (r.shiftRight raw shift) ∧ FitsWord (r.shiftRight raw shift) := by
  refine ⟨?_, r.shiftRightWord_eq hraw shift, r.fitsWord_shiftRight hraw shift⟩
  intro n
  rw [selects_iff, shiftRight_eq]

/-- The least word over `2 ^ 128` is a tie, which goes away from zero. -/
theorem shiftRight_selects_least :
    nearest.Selects ((-(2 ^ 127) : ℤ) / 2 ^ 128) (-1) ∧ nearest.shiftRightWord (-(2 ^ 127)) 128 = some (-1) := by
  have hshift : nearest.shiftRight (-(2 ^ 127)) 128 = -1 := by decide +kernel
  obtain ⟨hselects, hword, -⟩ := nearest.shiftRight_selects (by decide : FitsWord (-(2 ^ 127))) 128
  exact ⟨(hselects (-1)).mpr hshift.symm, hshift ▸ hword⟩

end Rounding

namespace Format

variable (f : Format)

def rawMinWord : Option ℤ :=
  if f.signed then do
    let power ← checkWord (2 ^ (f.total - 1))
    checkWord (-power)
  else return 0

def rawMaxWord : Option ℤ := do
  let power ← checkWord (2 ^ (if f.signed then f.total - 1 else f.total))
  checkWord (power - 1)

def wrapOrClampWord (raw : ℤ) : Option ℤ :=
  match f.overflow with
  | .saturate => do
    let low ← f.rawMinWord
    let high ← f.rawMaxWord
    return if raw < low then low else if high < raw then high else raw
  | .wrap => do
    let modulus ← checkWord (2 ^ f.total)
    let low := raw % modulus
    if f.signed ∧ modulus / 2 ≤ low then checkWord (low - modulus) else return low

/-- Narrowing as the machine steps through it, or nothing where a step leaves its word. -/
def narrowRawWord (raw frac : ℤ) : Option ℤ :=
  if f.frac ≤ frac then do
    let rounded ← f.rounding.shiftRightWord raw (frac - f.frac).toNat
    f.wrapOrClampWord rounded
  else do
    let shift := (f.frac - frac).toNat
    match ← scaleUpWord raw shift, f.overflow with
    | some scaled, _ => f.wrapOrClampWord scaled
    | none, .saturate => if raw < 0 then f.rawMinWord else f.rawMaxWord
    | none, .wrap =>
      if f.total ≤ shift then return 0
      else
        let reduced ← f.wrapOrClampWord raw
        let shifted ← checkWord (reduced * 2 ^ shift)
        f.wrapOrClampWord shifted

theorem rawMinWord_eq : f.rawMinWord = some f.rawMin := by
  have h := f.total_bounds
  have hfits := f.inRange_rawMin.fitsWord
  cases hs : f.signed with
  | false => simp only [rawMinWord, rawMin, hs, Bool.false_eq_true, if_false, Option.pure_def]
  | true =>
    simp only [rawMin, hs, if_true] at hfits
    simp only [rawMinWord, rawMin, hs, if_true, checkWord_of_fits hfits,
      checkWord_of_fits (fitsWord_two_pow (by omega : f.total - 1 < 127)), Option.bind_eq_bind, Option.bind_some]

theorem rawMaxWord_eq : f.rawMaxWord = some f.rawMax := by
  have h := f.total_bounds
  have hfits := f.inRange_rawMax.fitsWord
  cases hs : f.signed with
  | false =>
    simp only [rawMax, hs, Bool.false_eq_true, if_false] at hfits
    simp only [rawMaxWord, rawMax, hs, Bool.false_eq_true, if_false, checkWord_of_fits hfits,
      checkWord_of_fits (fitsWord_two_pow (by omega : f.total < 127)), Option.bind_eq_bind, Option.bind_some]
  | true =>
    simp only [rawMax, hs, if_true] at hfits
    simp only [rawMaxWord, rawMax, hs, if_true, checkWord_of_fits hfits,
      checkWord_of_fits (fitsWord_two_pow (by omega : f.total - 1 < 127)), Option.bind_eq_bind, Option.bind_some]

theorem wrapOrClampWord_eq (raw : ℤ) : f.wrapOrClampWord raw = some (f.wrapOrClamp raw) := by
  have h := f.total_bounds
  cases ho : f.overflow with
  | saturate =>
    simp only [wrapOrClampWord, wrapOrClamp, ho, rawMinWord_eq, rawMaxWord_eq, Option.bind_eq_bind, Option.bind_some,
      Option.pure_def]
  | wrap =>
    have hhalf : (2 : ℤ) ^ f.total / 2 = 2 ^ (f.total - 1) := by
      obtain ⟨k, hk⟩ : ∃ k, f.total = k + 1 := ⟨f.total - 1, by omega⟩
      rw [hk, pow_succ, Int.mul_ediv_cancel _ two_ne_zero, Nat.add_sub_cancel]
    have hfits : FitsWord (raw % 2 ^ f.total - 2 ^ f.total) := by
      have h0 := Int.emod_nonneg raw (b := 2 ^ f.total) (by positivity)
      have h1 := Int.emod_lt_of_pos raw (b := 2 ^ f.total) (by positivity)
      have h2 := two_pow_le_word h.2
      exact ⟨by omega, by omega⟩
    simp only [wrapOrClampWord, wrapOrClamp, ho, checkWord_of_fits (fitsWord_two_pow (by omega : f.total < 127)),
      hhalf, checkWord_of_fits hfits, Option.bind_eq_bind, Option.bind_some, Option.pure_def, Bool.and_eq_true,
      decide_eq_true_eq]
    split <;> rfl

theorem fitsWord_reduced {raw : ℤ} {shift : ℕ} (h : shift < f.total) : FitsWord (f.wrapOrClamp raw * 2 ^ shift) := by
  have htotal := f.total_bounds
  obtain ⟨hlo, hhi⟩ := (f.reduce_inRange raw).bounds
  have hpos : (0 : ℤ) < 2 ^ shift := by positivity
  have hpow : (2 : ℤ) ^ shift ≤ 2 ^ 63 := pow_le_pow_right₀ (by norm_num) (by omega)
  rw [wrapOrClamp_eq]
  generalize f.reduce raw = n at hlo hhi
  generalize (2 : ℤ) ^ shift = p at hpos hpow
  exact ⟨by nlinarith, by nlinarith⟩

theorem narrowRawWord_eq {raw : ℤ} (hraw : FitsWord raw) (frac : ℤ) :
    f.narrowRawWord raw frac = some (f.narrowRaw raw frac) := by
  unfold narrowRawWord narrowRaw
  split
  · rw [f.rounding.shiftRightWord_eq hraw]
    exact f.wrapOrClampWord_eq _
  · dsimp only
    generalize (f.frac - frac).toNat = shift
    rw [scaleUpWord_eq, Option.bind_eq_bind, Option.bind_some]
    cases scaleUp raw shift with
    | some scaled => exact f.wrapOrClampWord_eq scaled
    | none =>
      cases f.overflow with
      | saturate =>
        simp only [rawMinWord_eq, rawMaxWord_eq]
        split <;> rfl
      | wrap =>
        dsimp only
        split
        · rfl
        · rw [wrapOrClampWord_eq, Option.bind_eq_bind, Option.bind_some,
            checkWord_of_fits (f.fitsWord_reduced (by omega)), Option.bind_some, wrapOrClampWord_eq]

/-- Narrowing is one integer chosen by the mode, then the clamp into the range or the one number there that is congruent
modulo the width. Reducing before the shift, where scaling up leaves the word, is no exception, and no step of the
machine leaves its word. -/
theorem narrowRaw_meets_specification {raw : ℤ} (hraw : FitsWord raw) (frac : ℤ) :
    ∃ n, (∀ m, f.rounding.Selects (raw * 2 ^ (f.frac - frac)) m ↔ m = n) ∧
      (f.overflow = .saturate → f.narrowRaw raw frac = max f.rawMin (min n f.rawMax)) ∧
      (f.overflow = .wrap → ∀ m, f.InRange m ∧ m ≡ n [ZMOD 2 ^ f.total] ↔ m = f.narrowRaw raw frac) ∧
      (frac < f.frac → f.narrowRaw raw frac = f.wrapOrClamp (raw * 2 ^ (f.frac - frac).toNat)) ∧
      f.narrowRawWord raw frac = some (f.narrowRaw raw frac) := by
  have hq : (raw : ℚ) * 2 ^ (f.frac - frac) = raw * 2 ^ (-frac) * 2 ^ f.frac := by
    rw [mul_assoc, ← zpow_add₀ two_ne_zero, neg_add_eq_sub]
  refine ⟨f.rounding.round (raw * 2 ^ (f.frac - frac)), fun m ↦ Rounding.selects_iff, fun h ↦ ?_, fun h m ↦ ?_,
    fun h ↦ ?_, f.narrowRawWord_eq hraw frac⟩
  · rw [narrowRaw_eq, rawOf, hq, reduce, h]
  · rw [narrowRaw_eq, rawOf, hq]
    generalize f.rounding.round _ = n
    constructor
    · rintro ⟨hm, hmn⟩
      exact hm.eq_of_modEq (f.reduce_inRange n) (hmn.trans (f.reduce_modEq h n).symm)
    · rintro rfl
      exact ⟨f.reduce_inRange n, f.reduce_modEq h n⟩
  · rw [narrowRaw_eq, f.rawOf_eq_of_le_frac h.le, wrapOrClamp_eq]

/-- A raw value that scaling up takes out of the word, on `fixed<16,6>`. -/
theorem narrowRaw_meets_specification_reduced :
    scaleUp (2 ^ 126 + 1) 13 = none ∧
    ∃ n, (∀ m, (default : Format).rounding.Selects ((2 ^ 126 + 1 : ℤ) * 2 ^ ((default : Format).frac - -3)) m ↔ m = n) ∧
      8192 ≡ n [ZMOD 2 ^ 16] := by
  obtain ⟨n, hn, -, hwrap, -, -⟩ := (default : Format).narrowRaw_meets_specification
    (by decide : FitsWord (2 ^ 126 + 1)) (-3)
  exact ⟨by decide, n, hn, ((hwrap rfl 8192).mpr (by decide)).2⟩

end Format

end FixedNet

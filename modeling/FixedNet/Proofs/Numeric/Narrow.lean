import FixedNet.Numeric.Fixed
import FixedNet.Proofs.Numeric.Rounding

namespace FixedNet

/-- The rational that a fixed-point value stands for. -/
def Fixed.value (x : Fixed) : ℚ := x.raw * 2 ^ (-x.frac)

namespace Format

theorem fields_of_make {total : ℕ} {integer : ℤ} {signed : Bool} {f : Format}
    (h : Format.make total integer signed = .ok f) :
    f.total = total ∧ f.integer = integer ∧ f.signed = signed ∧ f.rounding = .down ∧ f.overflow = .wrap := by
  unfold Format.make at h
  split at h
  · cases h
    exact ⟨rfl, rfl, rfl, rfl, rfl⟩
  · cases h

variable (f : Format)

/-- Brings an integer into the range: the nearest one there, or the one congruent modulo the width. -/
def reduce (n : ℤ) : ℤ :=
  match f.overflow with
  | .saturate => max f.rawMin (min n f.rawMax)
  | .wrap => (n - f.rawMin) % 2 ^ f.total + f.rawMin

/-- The raw value that stands for a rational. -/
def rawOf (q : ℚ) : ℤ := f.reduce (f.rounding.round (q * 2 ^ f.frac))

def narrowValue (q : ℚ) : ℚ := f.rawOf q * 2 ^ (-f.frac)

def InRange (n : ℤ) : Prop := f.rawMin ≤ n ∧ n ≤ f.rawMax

instance (n : ℤ) : Decidable (f.InRange n) := inferInstanceAs (Decidable (_ ∧ _))

theorem rawMax_eq : f.rawMax = f.rawMin + 2 ^ f.total - 1 := by
  obtain ⟨k, hk⟩ : ∃ k, f.total = k + 1 := ⟨f.total - 1, by have := f.total_bounds; omega⟩
  unfold rawMin rawMax
  split
  · rw [hk, Nat.add_sub_cancel, pow_succ]
    ring
  · ring

theorem rawMin_nonpos : f.rawMin ≤ 0 := by
  unfold rawMin
  split
  · have : (0 : ℤ) < 2 ^ (f.total - 1) := by positivity
    omega
  · exact le_rfl

theorem rawMax_nonneg : 0 ≤ f.rawMax := by
  unfold rawMax
  split
  · have : (0 : ℤ) < 2 ^ (f.total - 1) := by positivity
    omega
  · have : (0 : ℤ) < 2 ^ f.total := by positivity
    omega

theorem inRange_zero : f.InRange 0 := ⟨f.rawMin_nonpos, f.rawMax_nonneg⟩

theorem inRange_rawMin : f.InRange f.rawMin := ⟨le_rfl, f.rawMin_nonpos.trans f.rawMax_nonneg⟩

theorem inRange_rawMax : f.InRange f.rawMax := ⟨f.rawMin_nonpos.trans f.rawMax_nonneg, le_rfl⟩

theorem two_pow_le_word {k : ℕ} (h : k ≤ 64) : (2 : ℤ) ^ k ≤ 2 ^ 64 := pow_le_pow_right₀ (by norm_num) h

theorem neg_word_le_rawMin : -(2 ^ 63) ≤ f.rawMin := by
  have h := f.total_bounds
  unfold rawMin
  split
  · have : (2 : ℤ) ^ (f.total - 1) ≤ 2 ^ 63 := pow_le_pow_right₀ (by norm_num) (by omega)
    omega
  · norm_num

theorem rawMax_lt_word : f.rawMax < 2 ^ 64 := by
  have h := f.total_bounds
  unfold rawMax
  split
  · have : (2 : ℤ) ^ (f.total - 1) ≤ 2 ^ 63 := pow_le_pow_right₀ (by norm_num) (by omega)
    omega
  · have := two_pow_le_word h.2
    omega

theorem InRange.bounds {f : Format} {n : ℤ} (h : f.InRange n) : -(2 ^ 63) ≤ n ∧ n < 2 ^ 64 :=
  ⟨f.neg_word_le_rawMin.trans h.1, h.2.trans_lt f.rawMax_lt_word⟩

theorem reduce_inRange (n : ℤ) : f.InRange (f.reduce n) := by
  have hmin := f.rawMin_nonpos
  have hmax := f.rawMax_nonneg
  have heq := f.rawMax_eq
  unfold reduce InRange
  split
  · omega
  · have h0 := Int.emod_nonneg (n - f.rawMin) (b := 2 ^ f.total) (by positivity)
    have h1 := Int.emod_lt_of_pos (n - f.rawMin) (b := 2 ^ f.total) (by positivity)
    omega

theorem reduce_of_inRange {n : ℤ} (h : f.InRange n) : f.reduce n = n := by
  obtain ⟨hlo, hhi⟩ := h
  have heq := f.rawMax_eq
  unfold reduce
  split
  · omega
  · rw [Int.emod_eq_of_lt (by omega) (by omega)]
    omega

theorem rawOf_of_inRange {n : ℤ} (h : f.InRange n) : f.rawOf (n * 2 ^ (-f.frac)) = n := by
  rw [rawOf, mul_assoc, ← zpow_add₀ two_ne_zero, neg_add_cancel, zpow_zero, mul_one, Rounding.round_intCast,
    f.reduce_of_inRange h]

def Represents (q : ℚ) : Prop := ∃ n, f.InRange n ∧ (n : ℚ) * 2 ^ (-f.frac) = q

theorem narrowValue_of_represents {q : ℚ} (h : f.Represents q) : f.narrowValue q = q := by
  obtain ⟨n, hn, rfl⟩ := h
  rw [narrowValue, f.rawOf_of_inRange hn]

/-- A wrapping format does not see multiples of its modulus. -/
theorem reduce_congr (h : f.overflow = .wrap) {m n : ℤ} (hmn : m ≡ n [ZMOD 2 ^ f.total]) :
    f.reduce m = f.reduce n := by
  simp only [reduce, h]
  rw [Int.ModEq.sub_right f.rawMin hmn]

theorem reduce_modEq (h : f.overflow = .wrap) (n : ℤ) : f.reduce n ≡ n [ZMOD 2 ^ f.total] := by
  simp only [reduce, h]
  have := (Int.mod_modEq (n - f.rawMin) (2 ^ f.total)).add_right f.rawMin
  simpa using this

theorem reduce_of_le (h : f.overflow = .saturate) {n : ℤ} (hn : n ≤ f.rawMin) : f.reduce n = f.rawMin := by
  have hmin := f.rawMin_nonpos
  have hmax := f.rawMax_nonneg
  simp only [reduce, h]
  omega

theorem reduce_of_ge (h : f.overflow = .saturate) {n : ℤ} (hn : f.rawMax ≤ n) : f.reduce n = f.rawMax := by
  have hmin := f.rawMin_nonpos
  have hmax := f.rawMax_nonneg
  simp only [reduce, h]
  omega

theorem InRange.eq_of_modEq {f : Format} {m n : ℤ} (hm : f.InRange m) (hn : f.InRange n)
    (h : m ≡ n [ZMOD 2 ^ f.total]) : m = n := by
  obtain ⟨hm₁, hm₂⟩ := hm
  obtain ⟨hn₁, hn₂⟩ := hn
  have heq := f.rawMax_eq
  have h' := h.sub_right f.rawMin
  unfold Int.ModEq at h'
  rw [Int.emod_eq_of_lt (by omega) (by omega), Int.emod_eq_of_lt (by omega) (by omega)] at h'
  omega

theorem wrapOrClamp_eq (n : ℤ) : f.wrapOrClamp n = f.reduce n := by
  cases ho : f.overflow with
  | saturate =>
    simp only [wrapOrClamp, reduce, ho]
    have hmin := f.rawMin_nonpos
    have hmax := f.rawMax_nonneg
    split_ifs <;> omega
  | wrap =>
    apply InRange.eq_of_modEq (f := f) _ (f.reduce_inRange n)
    · refine Int.ModEq.trans ?_ (f.reduce_modEq ho n).symm
      simp only [wrapOrClamp, ho]
      split
      · simpa using (Int.mod_modEq n (2 ^ f.total)).sub (Int.modEq_zero_iff_dvd.mpr dvd_rfl)
      · exact Int.mod_modEq n (2 ^ f.total)
    · have h0 := Int.emod_nonneg n (b := 2 ^ f.total) (by positivity)
      have h1 := Int.emod_lt_of_pos n (b := 2 ^ f.total) (by positivity)
      have heq := f.rawMax_eq
      simp only [wrapOrClamp, ho, InRange]
      obtain ⟨k, hk⟩ : ∃ k, f.total = k + 1 := ⟨f.total - 1, by have := f.total_bounds; omega⟩
      unfold rawMin at heq ⊢
      cases hs : f.signed <;> simp only [hs, hk, Nat.add_sub_cancel, pow_succ] at heq h0 h1 ⊢
      · simp only [Bool.false_and, Bool.false_eq_true, if_false] at heq ⊢
        omega
      · simp only [Bool.true_and, decide_eq_true_eq, if_true] at heq ⊢
        split <;> omega

end Format

theorem checkWord_eq_some {m n : ℤ} : checkWord m = some n ↔ FitsWord m ∧ n = m := by
  unfold checkWord
  split <;> simp_all [eq_comm]

theorem checkWord_eq_none {m : ℤ} : checkWord m = none ↔ ¬ FitsWord m := by
  unfold checkWord
  split <;> simp_all

theorem not_fitsWord {n : ℤ} (h : ¬ FitsWord n) : 2 ^ 127 ≤ |n| := by
  unfold FitsWord at h
  rw [le_abs]
  omega

theorem scaleUp_eq_some {raw : ℤ} {shift : ℕ} {n : ℤ} (h : scaleUp raw shift = some n) : n = raw * 2 ^ shift := by
  unfold scaleUp at h
  split at h
  case isTrue h0 => simpa [h0] using h.symm
  case isFalse =>
    split at h
    · cases h
    · exact (checkWord_eq_some.mp h).2

theorem two_pow_le_abs_of_scaleUp_eq_none {raw : ℤ} {shift : ℕ} (h : scaleUp raw shift = none) :
    2 ^ 127 ≤ |raw * 2 ^ shift| := by
  unfold scaleUp at h
  split at h
  case isTrue => cases h
  case isFalse h0 =>
    split at h
    case isTrue hs =>
      have h1 : (1 : ℤ) ≤ |raw| := Int.one_le_abs h0
      have h2 : (2 : ℤ) ^ 127 ≤ 2 ^ shift := pow_le_pow_right₀ (by norm_num) hs
      rw [abs_mul, abs_of_pos (by positivity : (0 : ℤ) < 2 ^ shift)]
      calc (2 : ℤ) ^ 127 = 1 * 2 ^ 127 := (one_mul _).symm
        _ ≤ |raw| * 2 ^ shift := mul_le_mul h1 h2 (by positivity) (abs_nonneg _)
    case isFalse => exact not_fitsWord (checkWord_eq_none.mp h)

namespace Format

variable (f : Format)

theorem rawOf_eq_of_frac_le {raw frac : ℤ} (h : f.frac ≤ frac) :
    f.rawOf (raw * 2 ^ (-frac)) = f.reduce (f.rounding.shiftRight raw (frac - f.frac).toNat) := by
  have hk : ((frac - f.frac).toNat : ℤ) = frac - f.frac := Int.toNat_of_nonneg (by omega)
  rw [rawOf, Rounding.shiftRight_eq, mul_assoc, ← zpow_add₀ (by norm_num), ← zpow_natCast, hk, div_eq_mul_inv,
    ← zpow_neg]
  congr 4
  ring

theorem rawOf_eq_of_le_frac {raw frac : ℤ} (h : frac ≤ f.frac) :
    f.rawOf (raw * 2 ^ (-frac)) = f.reduce (raw * 2 ^ (f.frac - frac).toNat) := by
  have hk : ((f.frac - frac).toNat : ℤ) = f.frac - frac := Int.toNat_of_nonneg (by omega)
  have hq : (raw : ℚ) * 2 ^ (-frac) * 2 ^ f.frac = ((raw * 2 ^ (f.frac - frac).toNat : ℤ) : ℚ) := by
    push_cast
    rw [mul_assoc, ← zpow_add₀ (by norm_num), ← zpow_natCast, hk]
    congr 2
    ring
  rw [rawOf, hq, Rounding.round_intCast]

/-- Narrowing is rounding onto the grid, then clamping or reducing, whichever branch computes it. -/
theorem narrowRaw_eq (raw frac : ℤ) : f.narrowRaw raw frac = f.rawOf (raw * 2 ^ (-frac)) := by
  unfold narrowRaw
  split
  case isTrue h => rw [wrapOrClamp_eq, f.rawOf_eq_of_frac_le h]
  case isFalse h =>
    rw [f.rawOf_eq_of_le_frac (by omega)]
    dsimp only
    generalize (f.frac - frac).toNat = shift
    cases hs : scaleUp raw shift with
    | some scaled => simp only [wrapOrClamp_eq, scaleUp_eq_some hs]
    | none =>
      cases ho : f.overflow with
      | saturate =>
        have hbig := two_pow_le_abs_of_scaleUp_eq_none hs
        have hmin := f.neg_word_le_rawMin
        have hmax := f.rawMax_lt_word
        have hpos : (0 : ℤ) < 2 ^ shift := by positivity
        dsimp only
        split
        · have hneg : raw * 2 ^ shift ≤ 0 := mul_nonpos_of_nonpos_of_nonneg (by omega) hpos.le
          rw [abs_of_nonpos hneg] at hbig
          exact (f.reduce_of_le ho (by omega)).symm
        · have hnonneg : 0 ≤ raw * 2 ^ shift := mul_nonneg (by omega) hpos.le
          rw [abs_of_nonneg hnonneg] at hbig
          exact (f.reduce_of_ge ho (by omega)).symm
      | wrap =>
        dsimp only
        split
        case isTrue ht =>
          have hdvd : (2 : ℤ) ^ f.total ∣ raw * 2 ^ shift := (pow_dvd_pow 2 ht).mul_left raw
          rw [f.reduce_congr ho (Int.modEq_zero_iff_dvd.mpr hdvd), f.reduce_of_inRange f.inRange_zero]
        case isFalse =>
          rw [wrapOrClamp_eq, wrapOrClamp_eq]
          exact f.reduce_congr ho ((f.reduce_modEq ho raw).mul_right _)

end Format

namespace Fixed

theorem narrow_eq (f : Format) (x : Fixed) : x.narrow f = ⟨f.rawOf x.value, f.frac⟩ := by
  rw [narrow, f.narrowRaw_eq, value]

@[simp]
theorem narrow_frac (f : Format) (x : Fixed) : (x.narrow f).frac = f.frac := rfl

theorem narrow_raw (f : Format) (x : Fixed) : (x.narrow f).raw = f.rawOf x.value := by rw [narrow_eq]

theorem value_narrow (f : Format) (x : Fixed) : (x.narrow f).value = f.narrowValue x.value := by
  rw [narrow_eq, value, Format.narrowValue]

theorem narrow_inRange (f : Format) (x : Fixed) : f.InRange (x.narrow f).raw := by
  rw [narrow_raw, Format.rawOf]
  exact f.reduce_inRange _

end Fixed

end FixedNet

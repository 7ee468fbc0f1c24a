import FixedNet.Proofs.Precision.Width

namespace FixedNet

open Binary64 (two_zpow_pos)

/-- The format that a width becomes: the same integer bits, at most 64 bits, and the default modes. -/
structure Width.Becomes (w : Width) (f : Format) : Prop where
  integer_eq : f.integer = w.integer
  signed_eq : f.signed = w.signed
  frac_eq : f.frac = min w.frac (64 - w.integer)
  rounding_eq : f.rounding = .down
  overflow_eq : f.overflow = .wrap

/-- Room for a number of terms, each between two raw values after flooring. -/
structure Format.Absorbs (f : Format) (terms : ℕ) (low high : ℤ) : Prop where
  rounding_eq : f.rounding = .down
  low_nonpos : low ≤ 0
  high_nonneg : 0 ≤ high
  rawMin_le : f.rawMin ≤ terms * low
  le_rawMax : terms * high ≤ f.rawMax

namespace Width

variable {w : Width} {f : Format}

theorem becomes_of_toFormat (h : w.toFormat = .ok f) (hpos : 1 ≤ w.total) : w.Becomes f := by
  obtain ⟨htotal, hinteger, hsigned, hrounding, hoverflow⟩ := Format.fields_of_make h
  dsimp only [total] at hpos
  have hkept : f.integer = w.integer := by
    rw [hinteger]
    split <;> omega
  refine ⟨hkept, hsigned, ?_, hrounding, hoverflow⟩
  unfold Format.frac
  rw [hkept, htotal]
  omega

theorem Becomes.frac_eq_of_le (h : w.Becomes f) (hle : w.total ≤ 64) : f.frac = w.frac := by
  have hfrac := h.frac_eq
  dsimp only [total] at hle
  omega

@[simp]
theorem widen_one (w : Width) : w.widen 1 = w := by simp [widen, ceilLog2]

theorem Becomes.exists_range {terms : ℕ} (h : (w.widen terms).Becomes f) (hpos : 1 ≤ w.total)
    (hterms : terms < 2 ^ 62) :
    ∃ e : ℕ, w.magnitude + f.frac = e ∧ f.rawMax = 2 ^ ceilLog2 terms * 2 ^ e - 1 ∧
      f.rawMin = if w.signed then -(2 ^ ceilLog2 terms * 2 ^ e) else 0 := by
  have hbits := ceilLog2_le (n := terms) (k := 62) hterms.le
  have hinteger : f.integer = w.integer + ceilLog2 terms := h.integer_eq
  have hfrac : f.frac = min w.frac (64 - (w.integer + ceilLog2 terms)) := h.frac_eq
  have htotal : f.frac = f.total - f.integer := rfl
  have hsigned : f.signed = w.signed := h.signed_eq
  have hmagnitude : 0 ≤ w.magnitude + f.frac := by
    unfold magnitude
    dsimp only [total] at hpos
    split <;> omega
  obtain ⟨e, he⟩ := Int.eq_ofNat_of_zero_le hmagnitude
  generalize ceilLog2 terms = c at *
  have hmax : f.rawMax = 2 ^ (c + e) - 1 := by
    unfold magnitude at he
    unfold Format.rawMax
    rw [← hsigned] at he
    split at he <;> split <;> first | contradiction | (congr 2; omega)
  have hmin : f.rawMin = if w.signed then -2 ^ (c + e) else 0 := by
    unfold Format.rawMax at hmax
    unfold Format.rawMin
    rw [← hsigned]
    split at hmax <;> split <;> first | contradiction | omega
  rw [pow_add] at hmax hmin
  exact ⟨e, he, hmax, hmin⟩

theorem Holds.floor_between {q : ℚ} (hq : w.Holds q) {frac : ℤ} {e : ℕ} (he : w.magnitude + frac = e) :
    (if w.signed then -2 ^ e else 0) ≤ ⌊q * 2 ^ frac⌋ ∧ ⌊q * 2 ^ frac⌋ ≤ 2 ^ e - 1 := by
  have hscaled : (2 : ℚ) ^ w.magnitude * 2 ^ frac = 2 ^ e := by rw [← zpow_add₀ two_ne_zero, he, zpow_natCast]
  have hpos := two_zpow_pos frac
  constructor
  · rw [Int.le_floor]
    have hlower := mul_le_mul_of_nonneg_right hq.lower hpos.le
    refine le_trans (le_of_eq ?_) hlower
    split
    · rw [neg_mul, hscaled]
      push_cast
      rfl
    · simp
  · rw [← Int.lt_add_one_iff, sub_add_cancel, Int.floor_lt]
    have hupper := mul_lt_mul_of_pos_right hq.upper hpos
    rw [hscaled] at hupper
    exact_mod_cast hupper

theorem exists_absorbs {terms : ℕ} (h : (w.widen terms).Becomes f) (hpos : 1 ≤ w.total) (hterms : terms < 2 ^ 62) :
    ∃ low high, f.Absorbs terms low high ∧ ∀ q, w.Holds q → low ≤ ⌊q * 2 ^ f.frac⌋ ∧ ⌊q * 2 ^ f.frac⌋ ≤ high := by
  obtain ⟨e, he, hmax, hmin⟩ := h.exists_range hpos hterms
  have hcast : (terms : ℤ) ≤ 2 ^ ceilLog2 terms := by exact_mod_cast le_two_pow_ceilLog2 terms
  have hone : (1 : ℤ) ≤ 2 ^ e := one_le_pow₀ (by norm_num)
  have hone' : (1 : ℤ) ≤ 2 ^ ceilLog2 terms := one_le_pow₀ (by norm_num)
  refine ⟨if w.signed then -2 ^ e else 0, 2 ^ e - 1, ⟨h.rounding_eq, ?_, by omega, ?_, ?_⟩, fun q hq ↦
    hq.floor_between he⟩
  · split <;> omega
  · rw [hmin]
    split
    · nlinarith
    · simp
  · rw [hmax]
    nlinarith

theorem Becomes.exists_intCast {terms : ℕ} (h : (w.widen terms).Becomes f) (hle : (w.widen terms).total ≤ 64) {q : ℚ}
    (hq : w.Holds q) : ∃ n : ℤ, q * 2 ^ f.frac = n := by
  obtain ⟨n, rfl⟩ := hq.grid
  refine ⟨n, ?_⟩
  have hfrac : f.frac = w.frac := h.frac_eq_of_le hle
  rw [hfrac, mul_assoc, ← zpow_add₀ two_ne_zero, neg_add_cancel, zpow_zero, mul_one]

end Width

end FixedNet

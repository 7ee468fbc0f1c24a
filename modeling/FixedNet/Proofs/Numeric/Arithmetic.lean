import FixedNet.Proofs.Numeric.Narrow

namespace FixedNet

theorem FitsWord.of_abs_lt {n : ℤ} (h : |n| < 2 ^ 127) : FitsWord n := by
  obtain ⟨hlo, hhi⟩ := abs_lt.mp h
  exact ⟨hlo.le, hhi⟩

theorem FitsWord.abs_le_word {n : ℤ} (h : FitsWord n) : |n| ≤ 2 ^ 127 := abs_le.mpr ⟨h.1, h.2.le⟩

namespace Fixed

/-- The raw value on the grid `2 ^ -frac`, which is to be the finer one. -/
def rawAt (x : Fixed) (frac : ℤ) : ℤ := x.raw * 2 ^ (frac - x.frac).toNat

def times (x y : Fixed) : Fixed := ⟨x.raw * y.raw, x.frac + y.frac⟩

def plus (x y : Fixed) : Fixed :=
  ⟨x.rawAt (max x.frac y.frac) + y.rawAt (max x.frac y.frac), max x.frac y.frac⟩

def opposite (x : Fixed) : Fixed := ⟨-x.raw, x.frac⟩

/-- Whether the raw value fits the word on the grid `2 ^ -frac`; a nonzero one may move by fewer than 127 bits. -/
def Aligns (x : Fixed) (frac : ℤ) : Prop := x.raw = 0 ∨ (frac - x.frac).toNat < 127 ∧ FitsWord (x.rawAt frac)

/-- Whether both operands of a sum and the sum itself fit the word. -/
def SumFits (x y : Fixed) : Prop :=
  x.Aligns (max x.frac y.frac) ∧ y.Aligns (max x.frac y.frac) ∧ FitsWord (x.plus y).raw

theorem value_eq_rawAt {x : Fixed} {frac : ℤ} (h : x.frac ≤ frac) : x.value = x.rawAt frac * 2 ^ (-frac) := by
  have hk : ((frac - x.frac).toNat : ℤ) = frac - x.frac := Int.toNat_of_nonneg (by omega)
  rw [value, rawAt]
  push_cast
  rw [mul_assoc, ← zpow_natCast, hk, ← zpow_add₀ (by norm_num)]
  congr 2
  ring

theorem value_times (x y : Fixed) : (x.times y).value = x.value * y.value := by
  simp only [value, times]
  push_cast
  rw [neg_add, zpow_add₀ (by norm_num)]
  ring

theorem value_plus (x y : Fixed) : (x.plus y).value = x.value + y.value := by
  rw [value_eq_rawAt (le_max_left x.frac y.frac), value_eq_rawAt (le_max_right x.frac y.frac), value]
  simp only [plus]
  push_cast
  ring

theorem value_opposite (x : Fixed) : x.opposite.value = -x.value := by
  simp only [value, opposite]
  push_cast
  ring

@[simp]
theorem value_zero : zero.value = 0 := by simp [value, zero]

@[simp]
theorem value_one : one.value = 1 := by simp [value, one]

@[simp]
theorem value_minusOne : minusOne.value = -1 := by simp [value, minusOne]

theorem value_nonneg_iff (x : Fixed) : 0 ≤ x.value ↔ 0 ≤ x.raw := by
  have hp : (0 : ℚ) < 2 ^ (-x.frac) := by positivity
  rw [value, mul_nonneg_iff_of_pos_right hp]
  exact_mod_cast Iff.rfl

theorem value_neg_iff (x : Fixed) : x.value < 0 ↔ x.raw < 0 := by
  rw [← not_le, value_nonneg_iff, not_le]

theorem checked_ok {o : Operation} {n : ℤ} (h : FitsWord n) : checked o (checkWord n) = .ok n := by
  rw [checkWord_eq_some.mpr ⟨h, rfl⟩]
  rfl

theorem checked_error {o : Operation} {n : ℤ} (h : ¬ FitsWord n) : checked o (checkWord n) = .error (.overflow o) := by
  rw [checkWord_eq_none.mpr h]
  rfl

theorem mul_ok {x y : Fixed} (h : FitsWord (x.raw * y.raw)) : x.mul y = .ok (x.times y) := by
  rw [mul, checked_ok h]
  rfl

theorem mul_error {x y : Fixed} (h : ¬ FitsWord (x.raw * y.raw)) : x.mul y = .error (.overflow .multiplication) := by
  rw [mul, checked_error h]
  rfl

theorem align_ok {x : Fixed} {frac : ℤ} (h : x.Aligns frac) : x.align frac = .ok (x.rawAt frac) := by
  unfold align scaleUp
  by_cases h0 : x.raw = 0
  · simp [h0, rawAt, checked]
  · obtain ⟨hs, hf⟩ := h.resolve_left h0
    rw [if_neg h0, if_neg (by omega)]
    exact checked_ok hf

theorem align_error {x : Fixed} {frac : ℤ} (h : ¬ x.Aligns frac) : x.align frac = .error (.overflow .alignment) := by
  obtain ⟨h0, h⟩ := not_or.mp h
  unfold align scaleUp
  rw [if_neg h0]
  split
  · rfl
  · exact checked_error fun hf ↦ h ⟨by omega, hf⟩

theorem add_ok {x y : Fixed} (h : x.SumFits y) : x.add y = .ok (x.plus y) := by
  obtain ⟨hx, hy, hs⟩ := h
  simp only [add, align_ok hx, align_ok hy, bind, Except.bind]
  rw [show x.rawAt (max x.frac y.frac) + y.rawAt (max x.frac y.frac) = (x.plus y).raw from rfl, checked_ok hs]
  rfl

theorem add_error {x y : Fixed} (h : ¬ x.SumFits y) : ∃ o, x.add y = .error (.overflow o) := by
  by_cases hx : x.Aligns (max x.frac y.frac)
  · by_cases hy : y.Aligns (max x.frac y.frac)
    · refine ⟨.addition, ?_⟩
      have hs : ¬ FitsWord (x.rawAt (max x.frac y.frac) + y.rawAt (max x.frac y.frac)) := fun hs ↦ h ⟨hx, hy, hs⟩
      simp only [add, align_ok hx, align_ok hy, bind, Except.bind, checked_error hs]
    · refine ⟨.alignment, ?_⟩
      simp only [add, align_ok hx, align_error hy, bind, Except.bind]
  · refine ⟨.alignment, ?_⟩
    simp only [add, align_error hx, bind, Except.bind]

/-- A difference is the sum with the opposite, unless the subtrahend is the least word. -/
theorem sub_eq {x y : Fixed} (h : FitsWord (-y.raw)) : x.sub y = x.add y.opposite := by
  simp only [sub, neg, checked_ok h, bind, Except.bind]
  rfl

theorem Aligns.of_frac_eq {x : Fixed} {frac : ℤ} (h : x.frac = frac) (hx : FitsWord x.raw) : x.Aligns frac := by
  refine .inr ?_
  simp [rawAt, h, hx]

theorem sumFits_iff {x y : Fixed} (h : x.frac = y.frac) (hx : FitsWord x.raw) (hy : FitsWord y.raw) :
    x.SumFits y ↔ FitsWord (x.raw + y.raw) := by
  have hp : (x.plus y).raw = x.raw + y.raw := by simp [plus, rawAt, h]
  rw [SumFits, hp, h, max_self]
  exact ⟨fun hs ↦ hs.2.2, fun hs ↦ ⟨.of_frac_eq h hx, .of_frac_eq rfl hy, hs⟩⟩

end Fixed

end FixedNet

import FixedNet.Proofs.Numeric.Arithmetic
import FixedNet.Proofs.Numeric.Words

namespace FixedNet

/-- A count of bits fits a two's complement word of 32 bits. -/
def FitsCount (n : ℤ) : Prop := -(2 ^ 31) ≤ n ∧ n < 2 ^ 31

instance (n : ℤ) : Decidable (FitsCount n) := inferInstanceAs (Decidable (_ ∧ _))

/-- A run of the machine: nothing where a step leaves its word unnoticed, else an answer or an overflow that it
reports. -/
abbrev Machine := ExceptT NumericError Option

def Machine.report {α : Type} (r : Except NumericError α) : Machine α := ExceptT.mk (some r)

def Machine.count (n : ℤ) : Machine ℤ := ExceptT.mk (if FitsCount n then some (.ok n) else none)

namespace Fixed

open Machine (report count)

/-- The exact value `q` on the grid `2 ^ -frac`, or an overflow in just the cases `lost`. -/
structure Gives (r : Except NumericError Fixed) (q : ℚ) (frac : ℤ) (lost : Prop) : Prop where
  exact : ∀ z, r = .ok z → z.value = q ∧ z.frac = frac ∧ FitsWord z.raw
  fails_iff : (∃ e, r = .error e) ↔ lost
  overflow : ∀ e, r = .error e → ∃ o, e = .overflow o

section Gives

variable {x y z : Fixed} {r : Except NumericError Fixed} {lost : Prop}

theorem Gives.of_ok (h : r = .ok z) (hfits : FitsWord z.raw) (hlost : ¬ lost) : Gives r z.value z.frac lost := by
  subst h
  refine ⟨?_, iff_of_false nofun hlost, nofun⟩
  rintro _ ⟨⟩
  exact ⟨rfl, rfl, hfits⟩

theorem Gives.of_error {o : Operation} (h : r = .error (.overflow o)) (hlost : lost) (q : ℚ) (frac : ℤ) :
    Gives r q frac lost := by
  subst h
  refine ⟨nofun, iff_of_true ⟨_, rfl⟩ hlost, ?_⟩
  rintro _ ⟨⟩
  exact ⟨o, rfl⟩

theorem mul_gives (x y : Fixed) :
    Gives (x.mul y) (x.value * y.value) (x.frac + y.frac) (¬ FitsWord (x.raw * y.raw)) := by
  by_cases h : FitsWord (x.raw * y.raw)
  · rw [← value_times]
    exact .of_ok (mul_ok h) h (not_not_intro h)
  · exact .of_error (mul_error h) h _ _

theorem add_gives (x y : Fixed) : Gives (x.add y) (x.value + y.value) (max x.frac y.frac) (¬ x.SumFits y) := by
  by_cases h : x.SumFits y
  · rw [← value_plus]
    exact .of_ok (add_ok h) h.2.2 (not_not_intro h)
  · obtain ⟨o, ho⟩ := add_error h
    exact .of_error ho h _ _

theorem not_sumFits_iff : ¬ x.SumFits y ↔
    ¬ x.Aligns (max x.frac y.frac) ∨ ¬ y.Aligns (max x.frac y.frac) ∨ ¬ FitsWord (x.plus y).raw := by
  rw [SumFits, not_and_or, not_and_or]

theorem fitsWord_neg_iff {n : ℤ} (h : FitsWord n) : FitsWord (-n) ↔ n ≠ -(2 ^ 127) := by
  unfold FitsWord at *
  omega

theorem sub_error (h : ¬ FitsWord (-y.raw)) : x.sub y = .error (.overflow .negation) := by
  rw [sub, neg, checked_error h]
  rfl

theorem sub_gives (hy : FitsWord y.raw) : Gives (x.sub y) (x.value - y.value) (max x.frac y.frac)
    (y.raw = -(2 ^ 127) ∨ ∃ e, x.add y.opposite = .error e) := by
  by_cases hneg : FitsWord (-y.raw)
  · have hadd := x.add_gives y.opposite
    rw [value_opposite, ← sub_eq_add_neg] at hadd
    rw [sub_eq hneg]
    refine ⟨hadd.exact, ?_, hadd.overflow⟩
    rw [or_iff_right ((fitsWord_neg_iff hy).mp hneg)]
  · exact .of_error (sub_error hneg) (.inl (by rwa [fitsWord_neg_iff hy, not_not] at hneg)) _ _

theorem plus_self (x : Fixed) : x.plus x = ⟨2 * x.raw, x.frac⟩ := by
  simp only [plus, rawAt, max_self, sub_self, Int.toNat_zero, pow_zero, mul_one, two_mul]

theorem decodeBipolar_eq (hx : FitsWord x.raw) (h : FitsWord (2 * x.raw)) :
    x.decodeBipolar = (⟨2 * x.raw, x.frac⟩ : Fixed).add minusOne := by
  rw [two_mul] at h
  rw [decodeBipolar, add_ok ((sumFits_iff rfl hx hx).mpr h), plus_self]
  exact sub_eq (y := one) (by decide)

theorem decodeBipolar_error (hx : FitsWord x.raw) (h : ¬ FitsWord (2 * x.raw)) :
    ∃ o, x.decodeBipolar = .error (.overflow o) := by
  rw [two_mul, ← sumFits_iff rfl hx hx] at h
  obtain ⟨o, ho⟩ := add_error h
  refine ⟨o, ?_⟩
  rw [decodeBipolar, ho]
  rfl

theorem decodeBipolar_gives (hx : FitsWord x.raw) : Gives x.decodeBipolar (2 * x.value - 1) (max x.frac 0)
    (¬ FitsWord (2 * x.raw) ∨ ¬ (⟨2 * x.raw, x.frac⟩ : Fixed).SumFits minusOne) := by
  by_cases h : FitsWord (2 * x.raw)
  · have hadd := (⟨2 * x.raw, x.frac⟩ : Fixed).add_gives minusOne
    rw [← plus_self, value_plus, value_minusOne, ← two_mul, ← sub_eq_add_neg, plus_self] at hadd
    rw [decodeBipolar_eq hx h, or_iff_right (not_not_intro h)]
    exact hadd
  · obtain ⟨o, ho⟩ := decodeBipolar_error hx h
    exact .of_error ho (.inl h) _ _

end Gives

def mulWord (x y : Fixed) : Machine Fixed := do
  let raw ← report (checked .multiplication (checkWord (x.raw * y.raw)))
  let frac ← count (x.frac + y.frac)
  return ⟨raw, frac⟩

def alignWord (x : Fixed) (frac : ℤ) : Machine ℤ := do
  let shift ← count (frac - x.frac)
  let scaled ← ExceptT.lift (scaleUpWord x.raw shift.toNat)
  report (checked .alignment scaled)

def addWord (x y : Fixed) : Machine Fixed := do
  let frac := max x.frac y.frac
  let a ← x.alignWord frac
  let b ← y.alignWord frac
  let raw ← report (checked .addition (checkWord (a + b)))
  return ⟨raw, frac⟩

def subWord (x y : Fixed) : Machine Fixed := do
  let y ← report y.neg
  x.addWord y

def decodeBipolarWord (x : Fixed) : Machine Fixed := do
  let doubled ← x.addWord x
  doubled.subWord one

section Machine

variable {x y : Fixed} {n : ℤ}

theorem count_eq (h : FitsCount n) : count n = report (.ok n) := congrArg ExceptT.mk (if_pos h)

theorem mulWord_eq (h : FitsCount (x.frac + y.frac)) : x.mulWord y = report (x.mul y) := by
  unfold mulWord mul
  rw [count_eq h]
  cases checked .multiplication (checkWord (x.raw * y.raw)) <;> rfl

theorem alignWord_eq {frac : ℤ} (h : FitsCount (frac - x.frac)) : x.alignWord frac = report (x.align frac) := by
  unfold alignWord align
  rw [count_eq h]
  change (ExceptT.lift (scaleUpWord x.raw (frac - x.frac).toNat) >>= _) = _
  rw [scaleUpWord_eq]
  rfl

theorem addWord_eq (h : FitsCount (x.frac - y.frac)) (h' : FitsCount (y.frac - x.frac)) :
    x.addWord y = report (x.add y) := by
  have hx : FitsCount (max x.frac y.frac - x.frac) := by
    unfold FitsCount at *
    omega
  have hy : FitsCount (max x.frac y.frac - y.frac) := by
    unfold FitsCount at *
    omega
  unfold addWord add
  simp only [alignWord_eq hx, alignWord_eq hy]
  cases x.align (max x.frac y.frac) with
  | error => rfl
  | ok a =>
    cases y.align (max x.frac y.frac) with
    | error => rfl
    | ok b =>
      change (report (checked .addition (checkWord (a + b))) >>= _)
        = report (checked .addition (checkWord (a + b)) >>= _)
      cases checked .addition (checkWord (a + b)) <;> rfl

theorem subWord_eq (h : FitsCount (x.frac - y.frac)) (h' : FitsCount (y.frac - x.frac)) :
    x.subWord y = report (x.sub y) := by
  unfold subWord sub neg
  cases checked .negation (checkWord (-y.raw)) with
  | error => rfl
  | ok raw => exact addWord_eq (y := ⟨raw, y.frac⟩) h h'

theorem decodeBipolarWord_eq (h : FitsCount x.frac) (h' : FitsCount (-x.frac)) :
    x.decodeBipolarWord = report x.decodeBipolar := by
  have hzero : FitsCount (x.frac - x.frac) := by
    rw [sub_self]
    decide
  unfold decodeBipolarWord decodeBipolar
  rw [addWord_eq hzero hzero]
  cases hadd : x.add x with
  | error => rfl
  | ok doubled =>
    obtain ⟨-, hfrac, -⟩ := (x.add_gives x).exact doubled hadd
    rw [max_self] at hfrac
    refine subWord_eq (x := doubled) (y := one) ?_ ?_
    · rw [hfrac]
      exact (sub_zero x.frac).symm ▸ h
    · rw [hfrac]
      exact (zero_sub x.frac).symm ▸ h'

end Machine

/-- Products, sums, differences and decoded codes are exact where they do not overflow. A product overflows just where
the raw one leaves the word; a sum where a raw value that is not zero has to move by 127 bits or more or leaves the word
when it is moved, or where the sum leaves the word; a difference where its subtrahend is the least word or the sum with
the opposite overflows. No count of bits leaves its word of 32 bits on the way there, as long as the sum, or the
distance, of the scales fits. -/
theorem arithmetic_exact {x y : Fixed} (hx : FitsWord x.raw) (hy : FitsWord y.raw) :
    Gives (x.mul y) (x.value * y.value) (x.frac + y.frac) (¬ FitsWord (x.raw * y.raw)) ∧
    Gives (x.add y) (x.value + y.value) (max x.frac y.frac)
      (¬ x.Aligns (max x.frac y.frac) ∨ ¬ y.Aligns (max x.frac y.frac) ∨ ¬ FitsWord (x.plus y).raw) ∧
    Gives (x.sub y) (x.value - y.value) (max x.frac y.frac)
      (y.raw = -(2 ^ 127) ∨ ∃ e, x.add y.opposite = .error e) ∧
    Gives x.decodeBipolar (2 * x.value - 1) (max x.frac 0)
      (¬ FitsWord (2 * x.raw) ∨ ¬ (⟨2 * x.raw, x.frac⟩ : Fixed).SumFits minusOne) ∧
    (FitsCount (x.frac + y.frac) → x.mulWord y = report (x.mul y)) ∧
    (FitsCount (x.frac - y.frac) → FitsCount (y.frac - x.frac) →
      x.addWord y = report (x.add y) ∧ x.subWord y = report (x.sub y)) ∧
    (FitsCount x.frac → FitsCount (-x.frac) → x.decodeBipolarWord = report x.decodeBipolar) := by
  refine ⟨x.mul_gives y, ?_, sub_gives hy, decodeBipolar_gives hx, mulWord_eq, fun h h' ↦ ?_, decodeBipolarWord_eq⟩
  · rw [← not_sumFits_iff]
    exact x.add_gives y
  · exact ⟨addWord_eq h h', subWord_eq h h'⟩

/-- A sum whose operands lie 127 bits apart: the machine reports an overflow, although the shifted word would fit. -/
theorem arithmetic_exact_apart :
    FitsWord (-1) ∧ FitsWord 1 ∧ FitsWord (-1 * 2 ^ 127) ∧
      ∃ o, (⟨-1, -3⟩ : Fixed).addWord ⟨1, 124⟩ = report (.error (.overflow o)) := by
  have hx : FitsWord (-1) := by decide
  have hy : FitsWord 1 := by decide
  obtain ⟨-, hadd, -, -, -, hword, -⟩ := arithmetic_exact (x := ⟨-1, -3⟩) (y := ⟨1, 124⟩) hx hy
  have hapart : ¬ (⟨-1, -3⟩ : Fixed).Aligns 124 := by
    rintro (h | ⟨h, -⟩)
    · exact absurd h (by decide)
    · exact absurd h (by decide)
  obtain ⟨e, he⟩ := hadd.fails_iff.mpr (.inl hapart)
  obtain ⟨o, rfl⟩ := hadd.overflow e he
  refine ⟨hx, hy, by decide, o, ?_⟩
  rw [(hword (by decide) (by decide)).1, he]

end Fixed

end FixedNet

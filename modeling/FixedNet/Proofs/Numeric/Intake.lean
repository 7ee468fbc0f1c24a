import FixedNet.Proofs.Binary64.Factors
import FixedNet.Proofs.Numeric.Sample

namespace FixedNet

open Binary64 (nearest two_zpow_pos value)

theorem Binary64.lt_abs_value {x : Float} (h : value x ≠ 0) : 2 ^ (-1075 : ℤ) < |value x| := by
  by_contra! hle
  exact h (nearest_value x ▸ nearest_eq_zero_iff.mpr hle)

namespace Format

variable {f : Format} {x : Float}

/-- A number that binary64 cannot tell from zero once it is scaled to the grid. -/
def Vanishes (f : Format) (x : Float) : Prop := value x ≠ 0 ∧ |value x * 2 ^ f.frac| ≤ 2 ^ (-1075 : ℤ)

/-- Such a number below zero where it should be rounded down. A format that has no raw value below zero and saturates
makes no difference between `-1` and `0`. -/
def Drops (f : Format) (x : Float) : Prop :=
  f.rounding = .down ∧ (f.signed = true ∨ f.overflow = .wrap) ∧ value x < 0 ∧ f.Vanishes x

theorem vanishes_iff : f.Vanishes x ↔ value x ≠ 0 ∧ nearest (value x * 2 ^ f.frac) = 0 := by
  rw [Vanishes, Binary64.nearest_eq_zero_iff]

theorem Vanishes.abs_lt (h : f.Vanishes x) : |value x * 2 ^ f.frac| < 1 / 2 := by
  have hhalf : (2 : ℚ) ^ (-1075 : ℤ) < 2 ^ (-1 : ℤ) := zpow_lt_zpow_right₀ one_lt_two (by norm_num)
  exact h.2.trans_lt (hhalf.trans_eq (by norm_num))

theorem Vanishes.frac_neg (h : f.Vanishes x) : f.frac < 0 := by
  obtain ⟨h0, hle⟩ := h
  by_contra! hfrac
  have hone : (1 : ℚ) ≤ 2 ^ f.frac := one_le_zpow₀ one_le_two hfrac
  rw [abs_mul, abs_of_pos (two_zpow_pos f.frac)] at hle
  exact ((le_mul_of_one_le_right (abs_nonneg _) hone).trans hle).not_gt (Binary64.lt_abs_value h0)

theorem reduce_neg_one_eq_zero_iff : f.reduce (-1) = 0 ↔ ¬ (f.signed = true ∨ f.overflow = .wrap) := by
  cases ho : f.overflow with
  | saturate =>
    by_cases hs : f.signed = true
    · have hmin : f.InRange (-1) := by
        have hpos : (0 : ℤ) < 2 ^ (f.total - 1) := by positivity
        refine ⟨?_, by linarith [f.rawMax_nonneg]⟩
        rw [rawMin, if_pos hs]
        omega
      simp [f.reduce_of_inRange hmin, hs]
    · have hmin : f.rawMin = 0 := if_neg hs
      simp [f.reduce_of_le ho (n := -1) (by omega), hmin, hs]
  | wrap =>
    -- a multiple of the modulus would have to divide one
    have hne : f.reduce (-1) ≠ 0 := by
      intro h0
      have hmod := f.reduce_modEq ho (-1)
      rw [h0] at hmod
      have htotal := f.total_bounds
      have hdvd : (2 : ℤ) ^ f.total ∣ 1 := by simpa using hmod.dvd
      have htwo : (2 : ℤ) ∣ 1 := (dvd_pow_self 2 (by omega)).trans hdvd
      norm_num at htwo
    simp [hne]

theorem Vanishes.rawOfNumber_eq (h : f.Vanishes x) : f.rawOfNumber x = 0 := by
  have hround : f.rounding.round (0 : ℚ) = 0 := by exact_mod_cast f.rounding.round_intCast 0
  rw [rawOfNumber, (vanishes_iff.mp h).2, hround, f.reduce_of_inRange f.inRange_zero]

theorem Vanishes.rawOf_eq (h : f.Vanishes x) (hdown : f.rounding = .down) (hneg : value x < 0) :
    f.rawOf (value x) = f.reduce (-1) := by
  have hscaled : value x * 2 ^ f.frac < 0 := mul_neg_of_neg_of_pos hneg (two_zpow_pos f.frac)
  rw [rawOf, Rounding.round_of_abs_lt_half f.rounding h.abs_lt, if_pos ⟨hdown, hscaled⟩]

theorem rawOfNumber_eq_rawOf_iff : f.rawOfNumber x = f.rawOf (value x) ↔ ¬ f.Drops x := by
  by_cases h : f.rounding = .down ∧ value x < 0 ∧ nearest (value x * 2 ^ f.frac) = 0
  · obtain ⟨hdown, hneg, h0⟩ := h
    have hvanishes : f.Vanishes x := vanishes_iff.mpr ⟨hneg.ne, h0⟩
    rw [hvanishes.rawOfNumber_eq, hvanishes.rawOf_eq hdown hneg, eq_comm, reduce_neg_one_eq_zero_iff]
    simp [Drops, hdown, hneg, hvanishes]
  · have hround := (Binary64.round_nearest_scaled_iff f.rounding x f.frac).mpr h
    refine iff_of_true (congrArg f.reduce hround) ?_
    rintro ⟨hdown, -, hneg, hvanishes⟩
    exact h ⟨hdown, hneg, (vanishes_iff.mp hvanishes).2⟩

end Format

namespace Fixed

/-- Just the numbers that are not finite are refused. All others get the raw value of their exact value, rounded and
brought into the range, however far outside the range they are and however small their product with the scale, unless
they are dropped. -/
theorem ofFloat_rounds_exactly (f : Format) (x : Float) :
    ((∃ e, ofFloat f x = .error e) ↔ x.isFinite = false) ∧
    (x.isFinite = true → ∃ raw, ofFloat f x = .ok ⟨raw, f.frac⟩ ∧ (raw = f.rawOf (Binary64.value x) ↔ ¬ f.Drops x)) ∧
    (f.Drops x → f.frac < 0 ∧ ofFloat f x = .ok ⟨0, f.frac⟩ ∧ f.rawOf (Binary64.value x) = f.reduce (-1)) := by
  refine ⟨?_, ?_, ?_⟩
  · cases hx : x.isFinite with
    | false => simp [ofFloat_error hx]
    | true => simp [ofFloat_ok f hx]
  · intro hx
    exact ⟨f.rawOfNumber x, ofFloat_ok f hx, Format.rawOfNumber_eq_rawOf_iff⟩
  · rintro ⟨hdown, -, hneg, hvanishes⟩
    have hx : x.isFinite = true := by
      by_contra hx
      exact hneg.ne (Binary64.value_of_not_isFinite (eq_false_of_ne_true hx))
    refine ⟨hvanishes.frac_neg, ?_, hvanishes.rawOf_eq hdown hneg⟩
    rw [ofFloat_ok f hx, hvanishes.rawOfNumber_eq]

end Fixed

def coarseFormat : Format :=
  { total := 16, integer := 20, signed := true, total_bounds := (default : Format).total_bounds }

theorem coarseFormat_frac : coarseFormat.frac = -4 := rfl

namespace Fixed

/-- A half below zero is rounded down. -/
theorem ofFloat_rounds_exactly_below : (-8 : Float).isFinite = true ∧ ¬ coarseFormat.Drops (-8) ∧
    ∃ raw, ofFloat coarseFormat (-8) = .ok ⟨raw, -4⟩ ∧ raw = coarseFormat.rawOf (Binary64.value (-8)) := by
  have hfinite : (-8 : Float).isFinite = true := by decide +kernel
  have hvalue : Binary64.value (-8) = (-8 : ℤ) := by
    rw [show (-8 : Float) = Binary64.ofInt (-8) by decide +kernel]
    exact (Binary64.ofInt_exact (by norm_num)).2
  have hdrops : ¬ coarseFormat.Drops (-8) := by
    rintro ⟨-, -, -, hvanishes⟩
    have hlt := hvanishes.abs_lt
    rw [hvalue, coarseFormat_frac] at hlt
    norm_num at hlt
  obtain ⟨raw, hok, hraw⟩ := (ofFloat_rounds_exactly coarseFormat (-8)).2.1 hfinite
  exact ⟨hfinite, hdrops, raw, hok, hraw.mpr hdrops⟩

/-- The smallest number below zero becomes `0`, where its exact value, and a fixed-point value that equals it, are
rounded down to `-1`. -/
theorem ofFloat_drops_least :
    ofFloat coarseFormat (-Binary64.pow2 (-1074)) = .ok ⟨0, -4⟩ ∧
      coarseFormat.rawOf (Binary64.value (-Binary64.pow2 (-1074))) = -1 ∧
      (⟨-1, 1074⟩ : Fixed).value = Binary64.value (-Binary64.pow2 (-1074)) ∧
      (⟨-1, 1074⟩ : Fixed).narrow coarseFormat = ⟨-1, -4⟩ := by
  have hfinite : (-Binary64.pow2 (-1074)).isFinite = true := by decide +kernel
  have hvalue : Binary64.value (-Binary64.pow2 (-1074)) = -2 ^ (-1074 : ℤ) := by
    rw [Binary64.value_neg, (Binary64.pow2_exact (by norm_num) (by norm_num)).2]
  have hneg : Binary64.value (-Binary64.pow2 (-1074)) < 0 := by
    rw [hvalue]
    exact neg_neg_of_pos (two_zpow_pos _)
  have hvanishes : coarseFormat.Vanishes (-Binary64.pow2 (-1074)) := by
    refine ⟨hneg.ne, ?_⟩
    rw [hvalue, coarseFormat_frac, abs_mul, abs_neg, abs_of_pos (two_zpow_pos _), abs_of_pos (two_zpow_pos _),
      ← zpow_add₀ two_ne_zero]
    exact zpow_le_zpow_right₀ one_le_two (by norm_num)
  refine ⟨?_, ?_, ?_, by decide⟩
  · rw [ofFloat_ok _ hfinite, hvanishes.rawOfNumber_eq]
    rfl
  · rw [hvanishes.rawOf_eq rfl hneg]
    exact coarseFormat.reduce_of_inRange (by decide)
  · rw [hvalue, value]
    norm_num

end Fixed

end FixedNet

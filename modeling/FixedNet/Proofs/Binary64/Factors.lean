import FixedNet.Proofs.Binary64.Operations

namespace FixedNet.Binary64

theorem value_nonneg_of_pos {x : Float} (h : 0 < x) : 0 ≤ value x := by
  cases hx : x.isFinite with
  | false => exact (value_of_not_isFinite hx).ge
  | true =>
    rw [lt_iff isFinite_zero hx, value_zero] at h
    exact h.le

theorem IsNearest.nonneg {x : Float} {q : ℚ} (h : IsNearest x q) (hq : 0 ≤ q) : 0 ≤ value x := by
  rcases lt_or_ge |nearest q| (2 ^ (1024 : ℤ)) with hlt | hge
  · rw [(h.of_lt hlt).2]
    exact nearest_nonneg hq
  · rw [value, h.of_le hge]
    rfl

theorem value_div_nonneg {x y : Float} (hx : 0 ≤ value x) (hy : 0 ≤ value y) : 0 ≤ value (x / y) := by
  by_cases hfinite : x.isFinite = true ∧ y.isFinite = true ∧ value y ≠ 0
  · obtain ⟨hfx, hfy, h0⟩ := hfinite
    exact (isNearest_div hfx hfy h0).nonneg (div_nonneg hx hy)
  · have hparts : x / y = ofParts ((parts x).div .binary64 (parts y)) := rfl
    have hzero : ∃ u, (parts x).div .binary64 (parts y) = u ∧ IsCanonical u ∧ partsValue u = 0 := by
      refine ⟨_, rfl, ?_⟩
      have hy' : ∀ s m e hm, parts y = .finite s m e hm → value y ≠ 0 := by
        intro s m e hm hp
        rw [value_of_parts hp, ← abs_ne_zero, abs_signed]
        exact (abs_pos.mpr (finite_pos hm e).ne').ne'
      rw [isFinite_iff, isFinite_iff] at hfinite
      generalize parts x = u at hfinite
      generalize parts y = v at hfinite hy'
      cases u with
      | infinity s | notANumber | zero s => cases v <;> exact ⟨trivial, rfl⟩
      | finite s m e hm =>
        cases v with
        | infinity | notANumber | zero => exact ⟨trivial, rfl⟩
        | finite s' m' e' hm' => exact absurd ⟨rfl, rfl, hy' _ _ _ _ rfl⟩ hfinite
    obtain ⟨u, hu, hcanonical, hvalue⟩ := hzero
    rw [value, hparts, hu, parts_ofParts hcanonical, hvalue]

/-- There is no finite quotient by zero. -/
theorem not_isFinite_div {x y : Float} {s : Float.Model.UnpackedFloat.Sign} (hy : parts y = .zero s) :
    (x / y).isFinite = false := by
  have hparts : x / y = ofParts ((parts x).div .binary64 (parts y)) := rfl
  have hlost : ∃ u, (parts x).div .binary64 (parts y) = u ∧ IsCanonical u ∧ u.isFinite = false := by
    rw [hy]
    cases parts x <;> exact ⟨_, rfl, trivial, rfl⟩
  obtain ⟨u, hu, hcanonical, hinfinite⟩ := hlost
  refine Bool.eq_false_iff.mpr fun hfinite ↦ ?_
  rw [isFinite_iff, hparts, hu, parts_ofParts hcanonical, hinfinite] at hfinite
  cases hfinite

theorem value_pow2_nonneg (e : ℤ) : 0 ≤ value (pow2 e) := by
  by_cases he : e < -1074
  · rw [pow2, if_pos he, value_of_parts_zero (parts_ofParts (u := .zero .positive) trivial)]
  · exact (isNearest_pow2 (not_lt.mp he)).nonneg (two_zpow_pos e).le

/-- Factors of a finite product are finite. -/
theorem isFinite_of_mul {x y : Float} (h : (x * y).isFinite = true) : x.isFinite = true ∧ y.isFinite = true := by
  have hparts : x * y = ofParts ((parts x).mul .binary64 (parts y)) := rfl
  have hlost {u : Float.Model.UnpackedFloat} (hu : (parts x).mul .binary64 (parts y) = u) (hcanonical : IsCanonical u)
      (hinfinite : u.isFinite = false) : False := by
    rw [isFinite_iff, hparts, hu, parts_ofParts hcanonical, hinfinite] at h
    cases h
  rw [isFinite_iff, isFinite_iff]
  generalize parts x = u at hlost
  generalize parts y = v at hlost
  cases u with
  | infinity s | notANumber => cases v <;> exact (hlost rfl trivial rfl).elim
  | zero s =>
    cases v with
    | infinity | notANumber => exact (hlost rfl trivial rfl).elim
    | zero | finite => exact ⟨rfl, rfl⟩
  | finite s m e hm =>
    cases v with
    | infinity | notANumber => exact (hlost rfl trivial rfl).elim
    | zero | finite => exact ⟨rfl, rfl⟩

/-- Signs and zero are exact factors. -/
theorem value_mul_of_sign {x y : Float} (hx : x.isFinite = true) (hy : y.isFinite = true)
    (h : value x = 1 ∨ value x = 0 ∨ value x = -1) : value (x * y) = value x * value y := by
  have hlt := abs_value_lt y
  refine ((isNearest_mul hx hy).exact ?_ ?_).2
  · rcases h with h | h | h <;> rw [h]
    · rw [one_mul, nearest_value]
    · rw [zero_mul, nearest_zero]
    · rw [neg_one_mul, nearest_neg, nearest_value]
  · rcases h with h | h | h <;> rw [h]
    · rwa [one_mul]
    · rw [zero_mul, abs_zero]
      exact two_zpow_pos _
    · rwa [neg_one_mul, abs_neg]

end FixedNet.Binary64

import FixedNet.Proofs.Binary64.Nearest
import FixedNet.Proofs.Binary64.Parts

namespace FixedNet.Binary64

open Float.Model (UnpackedFloat)
open Float.Model.UnpackedFloat (Sign)

def signed (s : Sign) (q : ℚ) : ℚ :=
  match s with
  | .negative => -q
  | .positive => q

def partsValue : UnpackedFloat → ℚ
  | .finite s m e _ => signed s (m * 2 ^ e)
  | _ => 0

/-- The number as a rational, zero for what is not finite. -/
def value (x : Float) : ℚ := partsValue (parts x)

theorem isFinite_iff (x : Float) : x.isFinite = true ↔ (parts x).isFinite = true := Iff.rfl

theorem signed_apply (s : Sign) (m : ℕ) : ((s.apply m : ℤ) : ℚ) = signed s m := by cases s <;> simp [Sign.apply, signed]

theorem signed_mul (s : Sign) (p q : ℚ) : signed s p * q = signed s (p * q) := by cases s <;> simp [signed]

theorem abs_signed (s : Sign) (q : ℚ) : |signed s q| = |q| := by cases s <;> simp [signed]

theorem nearest_signed (s : Sign) (q : ℚ) : nearest (signed s q) = signed s (nearest q) := by
  cases s
  · exact nearest_neg q
  · rfl

theorem Reduced.mul_lt {m : ℕ} {e : ℤ} (h : Reduced m e) : (m : ℚ) * 2 ^ e < 2 ^ (e + 53) := by
  have hm : (m : ℚ) < 2 ^ (53 : ℤ) := by exact_mod_cast h.mantissa_lt
  rw [add_comm, zpow_add₀ two_ne_zero]
  exact mul_lt_mul_of_pos_right hm (two_zpow_pos e)

theorem Reduced.le_mul {m : ℕ} {e : ℤ} (h : Reduced m e) (he : e ≠ -1074) : (2 : ℚ) ^ (e + 52) ≤ m * 2 ^ e := by
  have hm : (2 : ℚ) ^ (52 : ℤ) ≤ m := by exact_mod_cast h.leading.resolve_right he
  rw [add_comm, zpow_add₀ two_ne_zero]
  exact mul_le_mul_of_nonneg_right hm (two_zpow_pos e).le

theorem Reduced.lt_of_exponent_lt {m m' : ℕ} {e e' : ℤ} (h : Reduced m e) (h' : Reduced m' e') (he : e < e') :
    (m : ℚ) * 2 ^ e < m' * 2 ^ e' := by
  have hle := h.le_exponent
  refine h.mul_lt.trans_le (le_trans ?_ (h'.le_mul (by omega)))
  exact zpow_le_zpow_right₀ one_le_two (by omega)

theorem Reduced.compare_eq {m m' : ℕ} {e e' : ℤ} (h : Reduced m e) (h' : Reduced m' e') :
    (compare e e').then (compare m m') = compare ((m : ℚ) * 2 ^ e) (m' * 2 ^ e') := by
  rcases lt_trichotomy e e' with he | rfl | he
  · rw [compare_lt_iff_lt.mpr he, compare_lt_iff_lt.mpr (h.lt_of_exponent_lt h' he)]
    rfl
  · have hpos := two_zpow_pos e
    rw [compare_eq_iff_eq.mpr rfl]
    rcases lt_trichotomy m m' with hm | rfl | hm
    · have hm' : (m : ℚ) < m' := by exact_mod_cast hm
      rw [compare_lt_iff_lt.mpr hm, compare_lt_iff_lt.mpr (mul_lt_mul_of_pos_right hm' hpos)]
      rfl
    · rw [compare_eq_iff_eq.mpr rfl, compare_eq_iff_eq.mpr rfl]
      rfl
    · have hm' : (m' : ℚ) < m := by exact_mod_cast hm
      rw [compare_gt_iff_gt.mpr hm, compare_gt_iff_gt.mpr (mul_lt_mul_of_pos_right hm' hpos)]
      rfl
  · rw [compare_gt_iff_gt.mpr he, compare_gt_iff_gt.mpr (h'.lt_of_exponent_lt h he)]
    rfl

theorem finite_pos {m : ℕ} (hm : 0 < m) (e : ℤ) : (0 : ℚ) < m * 2 ^ e := by positivity

theorem compare_parts {u v : UnpackedFloat} (hu : IsCanonical u) (hv : IsCanonical v) (hfu : u.isFinite = true)
    (hfv : v.isFinite = true) : u.compare v = some (compare (partsValue u) (partsValue v)) := by
  cases u with
  | infinity | notANumber => cases hfu
  | zero s =>
    cases v with
    | infinity | notANumber => cases hfv
    | zero s' => exact congrArg some (compare_eq_iff_eq.mpr rfl).symm
    | finite s' m' e' hm' =>
      have hpos := finite_pos hm' e'
      cases s' with
      | negative => exact congrArg some (compare_gt_iff_gt.mpr (neg_neg_of_pos hpos)).symm
      | positive => exact congrArg some (compare_lt_iff_lt.mpr hpos).symm
  | finite s m e hm =>
    have hpos := finite_pos hm e
    cases v with
    | infinity | notANumber => cases hfv
    | zero s' =>
      cases s with
      | negative => exact congrArg some (compare_lt_iff_lt.mpr (neg_neg_of_pos hpos)).symm
      | positive => exact congrArg some (compare_gt_iff_gt.mpr hpos).symm
    | finite s' m' e' hm' =>
      have hpos' := finite_pos hm' e'
      cases s with
      | negative =>
        cases s' with
        | negative =>
          refine congrArg some ?_
          rw [hu.1.compare_eq hv.1]
          change _ = compare (-((m : ℚ) * 2 ^ e)) (-(m' * 2 ^ e'))
          rcases lt_trichotomy ((m : ℚ) * 2 ^ e) (m' * 2 ^ e') with h | h | h
          · rw [compare_lt_iff_lt.mpr h, compare_gt_iff_gt.mpr (neg_lt_neg h)]
            rfl
          · rw [compare_eq_iff_eq.mpr h, compare_eq_iff_eq.mpr (congrArg _ h)]
            rfl
          · rw [compare_gt_iff_gt.mpr h, compare_lt_iff_lt.mpr (neg_lt_neg h)]
            rfl
        | positive => exact congrArg some (compare_lt_iff_lt.mpr ((neg_neg_of_pos hpos).trans hpos')).symm
      | positive =>
        cases s' with
        | negative => exact congrArg some (compare_gt_iff_gt.mpr ((neg_neg_of_pos hpos').trans hpos)).symm
        | positive => exact congrArg some (hu.1.compare_eq hv.1)

theorem compare_eq {x y : Float} (hx : x.isFinite = true) (hy : y.isFinite = true) :
    (parts x).compare (parts y) = some (compare (value x) (value y)) :=
  compare_parts (isCanonical_parts x) (isCanonical_parts y) hx hy

theorem lt_iff_compare (x y : Float) : x < y ↔ (parts x).compare (parts y) = some .lt := by
  change decide (((parts x).compare (parts y) == some .lt) = true) = true ↔ _
  rw [decide_eq_true_iff, beq_iff_eq]

theorem lt_iff {x y : Float} (hx : x.isFinite = true) (hy : y.isFinite = true) : x < y ↔ value x < value y := by
  rw [lt_iff_compare, compare_eq hx hy, ← compare_lt_iff_lt, Option.some_inj]

theorem lt_iff_of_infinity_left {x y : Float} {s : Sign} (hx : parts x = .infinity s) (hy : y.isFinite = true) :
    x < y ↔ s = .negative := by
  rw [isFinite_iff] at hy
  rw [lt_iff_compare, hx]
  generalize parts y = v at hy
  cases v with
  | infinity | notANumber => cases hy
  | zero | finite => cases s <;> simp [UnpackedFloat.compare]

theorem lt_iff_of_infinity_right {x y : Float} {s : Sign} (hx : x.isFinite = true) (hy : parts y = .infinity s) :
    x < y ↔ s = .positive := by
  rw [isFinite_iff] at hx
  rw [lt_iff_compare, hy]
  generalize parts x = u at hx
  cases u with
  | infinity | notANumber => cases hx
  | zero | finite => cases s <;> simp [UnpackedFloat.compare]

theorem le_iff_compare (x y : Float) : x ≤ y ↔ (((parts x).compare (parts y)).any (·.isLE)) = true := by
  change decide ((((parts x).compare (parts y)).any (·.isLE)) = true) = true ↔ _
  rw [decide_eq_true_iff]

theorem le_iff {x y : Float} (hx : x.isFinite = true) (hy : y.isFinite = true) : x ≤ y ↔ value x ≤ value y := by
  rw [le_iff_compare, compare_eq hx hy, ← not_lt, ← compare_gt_iff_gt]
  cases compare (value x) (value y) <;> decide

theorem beq_iff {x y : Float} (hx : x.isFinite = true) (hy : y.isFinite = true) :
    (x == y) = true ↔ value x = value y := by
  have h : (x == y) = true ↔ ((parts x).compare (parts y) == some .eq) = true := Iff.rfl
  rw [h, compare_eq hx hy, ← compare_eq_iff_eq (a := value x)]
  cases compare (value x) (value y) <;> decide

theorem parts_neg (x : Float) : parts (-x) = (parts x).neg := by
  have h := isCanonical_parts x
  refine parts_ofParts (u := (parts x).neg) ?_
  generalize parts x = u at h
  cases u with
  | infinity | notANumber | zero => trivial
  | finite s m e hm => exact h

theorem value_neg (x : Float) : value (-x) = -value x := by
  rw [value, parts_neg, value]
  cases parts x with
  | infinity | notANumber | zero => exact neg_zero.symm
  | finite s m e hm =>
    cases s
    · exact (neg_neg _).symm
    · rfl

theorem isFinite_neg (x : Float) : (-x).isFinite = x.isFinite := by
  change (parts (-x)).isFinite = (parts x).isFinite
  rw [parts_neg]
  cases parts x <;> rfl

theorem parts_abs (x : Float) : parts x.abs = (parts x).abs := by
  have h := isCanonical_parts x
  refine parts_ofParts (u := (parts x).abs) ?_
  generalize parts x = u at h
  cases u with
  | infinity | notANumber | zero => trivial
  | finite s m e hm => exact h

theorem value_abs (x : Float) : value x.abs = |value x| := by
  rw [value, parts_abs, value]
  cases parts x with
  | infinity | notANumber | zero => exact abs_zero.symm
  | finite s m e hm =>
    change (m : ℚ) * 2 ^ e = |signed s (m * 2 ^ e)|
    rw [abs_signed, abs_of_pos (finite_pos hm e)]

theorem isFinite_abs (x : Float) : x.abs.isFinite = x.isFinite := by
  change (parts x.abs).isFinite = (parts x).isFinite
  rw [parts_abs]
  cases parts x <;> rfl

theorem signed_pos_iff {s : Sign} {q : ℚ} (hq : 0 < q) : 0 < signed s q ↔ s = .positive := by
  cases s with
  | negative => exact iff_of_false (by simpa [signed] using hq.le) (by simp)
  | positive => exact iff_of_true hq rfl

theorem value_of_not_isFinite {x : Float} (h : x.isFinite = false) : value x = 0 := by
  have hx : (parts x).isFinite = false := h
  rw [value]
  generalize parts x = u at hx
  cases u with
  | infinity | notANumber => rfl
  | zero | finite => cases hx

theorem parts_of_value_ne_zero {x : Float} (h : value x ≠ 0) :
    ∃ s m e hm, parts x = .finite s m e hm ∧ Reduced m e ∧ e ≤ 971 := by
  have hcanonical := isCanonical_parts x
  rw [value] at h
  cases hx : parts x with
  | infinity | notANumber | zero => exact absurd (by rw [hx]; rfl) h
  | finite s m e hm =>
    rw [hx] at hcanonical
    exact ⟨s, m, e, hm, rfl, hcanonical⟩

theorem parts_of_value_pos {x : Float} (h : 0 < value x) : ∃ m e hm, parts x = .finite .positive m e hm := by
  obtain ⟨s, m, e, hm, hx, -⟩ := parts_of_value_ne_zero h.ne'
  rw [value, hx] at h
  obtain rfl := (signed_pos_iff (finite_pos hm e)).mp h
  exact ⟨m, e, hm, hx⟩

/-- A value other than zero belongs to one number. -/
theorem eq_of_value_eq {x y : Float} (hx : value x ≠ 0) (h : value x = value y) : x = y := by
  obtain ⟨s, m, e, hm, hxp, hrx, -⟩ := parts_of_value_ne_zero hx
  obtain ⟨s', m', e', hm', hyp, hry, -⟩ := parts_of_value_ne_zero (h ▸ hx)
  rw [value, hxp, value, hyp] at h
  change signed s (m * 2 ^ e) = signed s' (m' * 2 ^ e') at h
  have hs : s = s' := by
    have hpos := signed_pos_iff (s := s) (finite_pos hm e)
    rw [h, signed_pos_iff (finite_pos hm' e')] at hpos
    cases s <;> cases s' <;> simp_all
  have habs := congrArg abs h
  rw [abs_signed, abs_signed, abs_of_pos (finite_pos hm e), abs_of_pos (finite_pos hm' e')] at habs
  have hc := hrx.compare_eq hry
  rw [compare_eq_iff_eq.mpr habs, Ordering.then_eq_eq, compare_eq_iff_eq, compare_eq_iff_eq] at hc
  apply parts_injective
  rw [hxp, hyp, hs]
  exact finite_congr hc.2 hc.1

end FixedNet.Binary64

import FixedNet.Proofs.Binary64.Integral
import FixedNet.Proofs.Binary64.Order

namespace FixedNet.Binary64

open Float.Model (UnpackedFloat)
open Float.Model.UnpackedFloat (Sign)

variable {x y : Float}

theorem exists_value_eq_mul (x : Float) : ∃ n : ℤ, value x = n * 2 ^ (-1074 : ℤ) := by
  rcases eq_or_ne (value x) 0 with h0 | h0
  · exact ⟨0, by simp [h0]⟩
  obtain ⟨s, m, e, hm, hx, hreduced, -⟩ := parts_of_value_ne_zero h0
  have hle := hreduced.le_exponent
  have hk : ((e + 1074).toNat : ℤ) = e + 1074 := Int.toNat_of_nonneg (by omega)
  have hpow : (2 : ℚ) ^ e = 2 ^ (e + 1074).toNat * 2 ^ (-1074 : ℤ) := by
    rw [← zpow_natCast, hk, ← zpow_add₀ two_ne_zero, add_neg_cancel_right]
  refine ⟨s.apply m * 2 ^ (e + 1074).toNat, ?_⟩
  rw [value_of_parts hx, hpow, ← mul_assoc, ← signed_mul, ← signed_mul, ← signed_apply, Int.cast_mul, Int.cast_pow,
    Int.cast_ofNat]

theorem nearest_sub_eq_zero_iff : nearest (value x - value y) = 0 ↔ value x = value y := by
  rw [nearest_eq_zero_iff]
  constructor
  · intro hle
    obtain ⟨m, hm⟩ := exists_value_eq_mul x
    obtain ⟨n, hn⟩ := exists_value_eq_mul y
    have hpos := two_zpow_pos (-1074)
    rw [hm, hn, ← sub_mul, abs_mul, abs_of_pos hpos] at hle
    have hlt : ((|m - n| : ℤ) : ℚ) * 2 ^ (-1074 : ℤ) < 1 * 2 ^ (-1074 : ℤ) := by
      rw [Int.cast_abs, Int.cast_sub, one_mul]
      exact hle.trans_lt (zpow_lt_zpow_right₀ one_lt_two (by norm_num))
    have habs : |m - n| < 1 := by exact_mod_cast lt_of_mul_lt_mul_right hlt hpos.le
    rw [Int.abs_lt_one_iff, sub_eq_zero] at habs
    rw [hm, hn, habs]
  · intro heq
    rw [heq, sub_self, abs_zero]
    exact (two_zpow_pos _).le

theorem isNaN_abs (x : Float) : x.abs.isNaN = x.isNaN := by
  change (parts x.abs).isNaN = (parts x).isNaN
  rw [parts_abs]
  cases parts x <;> rfl

theorem rank_abs (x : Float) : rank x.abs = |rank x| := by
  rw [rank, parts_abs, rank]
  cases parts x with
  | infinity s => exact ((abs_signed s _).trans (abs_of_pos (two_zpow_pos _))).symm
  | notANumber | zero => exact abs_zero.symm
  | finite s m e hm => exact ((abs_signed s _).trans (abs_of_pos (finite_pos hm e))).symm

theorem zero_lt_abs_iff : 0 < x.abs ↔ x.isNaN = false ∧ rank x ≠ 0 := by
  have hzero : (0 : Float).isNaN = false := isNaN_of_isFinite isFinite_zero
  have hrank : rank 0 = 0 := (rank_of_isFinite isFinite_zero).trans value_zero
  constructor
  · intro hlt
    have hnum : x.abs.isNaN = false := (isNaN_of_lt hlt).2
    rw [lt_iff_rank hzero hnum, hrank, rank_abs, abs_pos] at hlt
    exact ⟨isNaN_abs x ▸ hnum, hlt⟩
  · rintro ⟨hnum, h0⟩
    have hnum' : x.abs.isNaN = false := (isNaN_abs x).trans hnum
    rwa [lt_iff_rank hzero hnum', hrank, rank_abs, abs_pos]

theorem IsNearest.isNaN_eq {q : ℚ} (h : IsNearest x q) : x.isNaN = false := by
  rcases lt_or_ge |nearest q| (2 ^ (1024 : ℤ)) with hlt | hge
  · exact isNaN_of_isFinite (h.of_lt hlt).1
  · change (parts x).isNaN = false
    rw [h.of_le hge]
    rfl

theorem IsNearest.rank_eq_zero_iff {q : ℚ} (h : IsNearest x q) : rank x = 0 ↔ nearest q = 0 := by
  rcases lt_or_ge |nearest q| (2 ^ (1024 : ℤ)) with hlt | hge
  · obtain ⟨hfinite, hvalue⟩ := h.of_lt hlt
    rw [rank_of_isFinite hfinite, hvalue]
  · rw [rank_of_infinity (h.of_le hge)]
    have hpos := two_zpow_pos 1024
    refine iff_of_false ?_ ?_
    · rw [← abs_eq_zero, abs_signed]
      exact (abs_pos.mpr hpos.ne').ne'
    · rw [← abs_eq_zero]
      exact (hpos.trans_le hge).ne'

theorem parts_sub_of_infinity_left {s : Sign} (hx : parts x = .infinity s) (hy : y.isFinite = true) :
    parts (x - y) = .infinity s := by
  have hparts : x - y = ofParts ((parts x).sub .binary64 (parts y)) := rfl
  rw [isFinite_iff] at hy
  rw [hparts, hx]
  generalize parts y = v at hy
  cases v with
  | infinity | notANumber => cases hy
  | zero | finite => exact parts_ofParts (u := .infinity s) trivial

theorem parts_sub_of_infinity_right {s : Sign} (hx : x.isFinite = true) (hy : parts y = .infinity s) :
    parts (x - y) = .infinity (-s) := by
  have hparts : x - y = ofParts ((parts x).sub .binary64 (parts y)) := rfl
  rw [isFinite_iff] at hx
  rw [hparts, hy]
  generalize parts x = u at hx
  cases u with
  | infinity | notANumber => cases hx
  | zero | finite => exact parts_ofParts (u := .infinity (-s)) trivial

theorem isNaN_sub_of_isNaN (h : x.isNaN = true ∨ y.isNaN = true) : (x - y).isNaN = true := by
  have hnan : parts (x - y) = .notANumber := by
    change parts (ofParts ((parts x).sub .binary64 (parts y))) = _
    change (parts x).isNaN = true ∨ (parts y).isNaN = true at h
    generalize parts x = u at h
    generalize parts y = v at h
    cases u with
    | notANumber => cases v <;> exact parts_ofParts (u := .notANumber) trivial
    | infinity | zero | finite =>
      cases v with
      | notANumber => exact parts_ofParts (u := .notANumber) trivial
      | infinity | zero | finite => exact absurd h (by rintro (h | h) <;> cases h)
  change (parts (x - y)).isNaN = true
  rw [hnan]
  rfl

theorem isNaN_and_rank_of_infinity {z : Float} {s : Sign} (hz : parts z = .infinity s) :
    z.isNaN = false ∧ rank z ≠ 0 := by
  refine ⟨?_, ?_⟩
  · change (parts z).isNaN = false
    rw [hz]
    rfl
  · rw [rank_of_infinity hz, ← abs_ne_zero, abs_signed]
    exact (abs_pos.mpr (two_zpow_pos _).ne').ne'

theorem sub_of_infinities {s s' : Sign} (hx : parts x = .infinity s) (hy : parts y = .infinity s') :
    ((x - y).isNaN = false ∧ rank (x - y) ≠ 0) ↔ rank x ≠ rank y := by
  have hparts : x - y = ofParts ((parts x).sub .binary64 (parts y)) := rfl
  rw [hx, hy] at hparts
  have hpos : (0 : ℚ) < 2 ^ (1024 : ℤ) := two_zpow_pos _
  have hapart : (2 : ℚ) ^ (1024 : ℤ) ≠ -2 ^ (1024 : ℤ) := (neg_lt_self hpos).ne'
  have hinfinite {t : Sign} (h : x - y = ofParts (.infinity t)) : (x - y).isNaN = false ∧ rank (x - y) ≠ 0 :=
    isNaN_and_rank_of_infinity (h ▸ parts_ofParts (u := .infinity t) trivial)
  have hnan (h : x - y = ofParts .notANumber) : ¬((x - y).isNaN = false ∧ rank (x - y) ≠ 0) := by
    rintro ⟨hnum, -⟩
    change (parts (x - y)).isNaN = false at hnum
    rw [h, parts_ofParts (u := .notANumber) trivial] at hnum
    cases hnum
  rw [rank_of_infinity hx, rank_of_infinity hy]
  cases s <;> cases s'
  · exact iff_of_false (hnan hparts) fun hne ↦ hne rfl
  · exact iff_of_true (hinfinite hparts) hapart.symm
  · exact iff_of_true (hinfinite hparts) hapart
  · exact iff_of_false (hnan hparts) fun hne ↦ hne rfl

theorem zero_lt_abs_sub_iff_rank (hx : x.isNaN = false) (hy : y.isNaN = false) :
    0 < (x - y).abs ↔ rank x ≠ rank y := by
  rw [zero_lt_abs_iff]
  rcases infinity_or_isFinite hx with ⟨s, hs⟩ | hfx
  · rcases infinity_or_isFinite hy with ⟨s', hs'⟩ | hfy
    · exact sub_of_infinities hs hs'
    · have hlt := abs_value_lt y
      refine iff_of_true (isNaN_and_rank_of_infinity (parts_sub_of_infinity_left hs hfy)) fun heq ↦ ?_
      rw [rank_of_infinity hs, rank_of_isFinite hfy] at heq
      rw [← heq, abs_signed, abs_of_pos (two_zpow_pos _)] at hlt
      exact hlt.false
  · rcases infinity_or_isFinite hy with ⟨s, hs⟩ | hfy
    · have hlt := abs_value_lt x
      refine iff_of_true (isNaN_and_rank_of_infinity (parts_sub_of_infinity_right hfx hs)) fun heq ↦ ?_
      rw [rank_of_infinity hs, rank_of_isFinite hfx] at heq
      rw [heq, abs_signed, abs_of_pos (two_zpow_pos _)] at hlt
      exact hlt.false
    · have hsub := isNearest_sub hfx hfy
      rw [hsub.isNaN_eq, eq_self, true_and, ne_eq, hsub.rank_eq_zero_iff, nearest_sub_eq_zero_iff, rank_of_isFinite hfx,
        rank_of_isFinite hfy]

theorem zero_lt_abs_sub_iff : 0 < (x - y).abs ↔ x < y ∨ y < x := by
  by_cases hnum : x.isNaN = false ∧ y.isNaN = false
  · obtain ⟨hx, hy⟩ := hnum
    rw [zero_lt_abs_sub_iff_rank hx hy, lt_iff_rank hx hy, lt_iff_rank hy hx, ne_iff_lt_or_gt]
  · refine iff_of_false (fun hlt ↦ ?_) (fun hlt ↦ hnum ?_)
    · rw [not_and_or, Bool.not_eq_false, Bool.not_eq_false] at hnum
      have hnan := (zero_lt_abs_iff.mp hlt).1
      rw [isNaN_sub_of_isNaN hnum] at hnan
      cases hnan
    · rcases hlt with hlt | hlt
      · exact isNaN_of_lt hlt
      · exact (isNaN_of_lt hlt).symm

theorem beq_iff_compare (x y : Float) : (x == y) = true ↔ (parts x).compare (parts y) = some .eq := by
  change ((parts x).compare (parts y) == some .eq) = true ↔ _
  rw [beq_iff_eq]

theorem isNaN_of_beq (h : (x == y) = true) : x.isNaN = false ∧ y.isNaN = false :=
  isNaN_of_compare ((beq_iff_compare x y).mp h)

theorem not_lt_or_lt_iff : ¬(x < y ∨ y < x) ↔ (x == y) = true ∨ x.isNaN = true ∨ y.isNaN = true := by
  by_cases hnum : x.isNaN = false ∧ y.isNaN = false
  · obtain ⟨hx, hy⟩ := hnum
    rw [beq_iff_compare, compare_rank hx hy, Option.some_inj, compare_eq_iff_eq, hx, hy, lt_iff_rank hx hy,
      lt_iff_rank hy hx, ← ne_iff_lt_or_gt, not_not]
    simp
  · refine iff_of_true (fun hlt ↦ hnum ?_) ?_
    · rcases hlt with hlt | hlt
      · exact isNaN_of_lt hlt
      · exact (isNaN_of_lt hlt).symm
    · rw [not_and_or, Bool.not_eq_false, Bool.not_eq_false] at hnum
      exact .inr hnum

end FixedNet.Binary64

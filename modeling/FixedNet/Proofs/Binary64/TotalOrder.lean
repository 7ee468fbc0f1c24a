import FixedNet.Proofs.Binary64.Value

namespace FixedNet.Binary64

open Float.Model (UnpackedFloat)
open Float.Model.UnpackedFloat (Sign)

theorem toNat_fields (b : BitVec 64) :
    b.toNat = 2 ^ 63 * (signField b).toNat + (2 ^ 52 * (exponentField b).toNat + (mantissaField b).toNat) := by
  have hb := b.isLt
  simp only [signField, exponentField, mantissaField, BitVec.extractLsb'_toNat, Nat.shiftRight_eq_div_pow]
  omega

def place (m : ℕ) (e : ℤ) : ℤ := 2 ^ 52 * (e + 1074) + m

/-- With a negative sign the places are counted backwards, from `-1` on. -/
def signedPlace (s : Sign) (p : ℤ) : ℤ :=
  match s with
  | .negative => -1 - p
  | .positive => p

def partsPlace : UnpackedFloat → ℤ
  | .zero s => signedPlace s 0
  | .finite s m e _ => signedPlace s (place m e)
  | _ => 0

theorem signedPlace_eq (s : Sign) {n : ℕ} (h : n < 2 ^ 63) :
    signedPlace s n = if 2 ^ 63 * s.toBitVec.toNat + n < 2 ^ 63 then ((2 ^ 63 * s.toBitVec.toNat + n : ℕ) : ℤ)
      else 2 ^ 63 - 1 - (2 ^ 63 * s.toBitVec.toNat + n : ℕ) := by
  cases s with
  | negative =>
    have hs : Sign.negative.toBitVec.toNat = 1 := rfl
    rw [hs, if_neg (by omega), signedPlace]
    omega
  | positive =>
    have hs : Sign.positive.toBitVec.toNat = 0 := rfl
    rw [hs, if_pos (by omega), signedPlace]
    omega

theorem orderKey_eq {x : Float} (h : x.isFinite = true) : orderKey x = partsPlace (parts x) := by
  have hread : Read _ _ _ (parts x) := read_unpack x.toModel.toBits.toBitVec
  have hfields := toNat_fields x.toModel.toBits.toBitVec
  have hm := (mantissaField x.toModel.toBits.toBitVec).isLt
  have he := (exponentField x.toModel.toBits.toBitVec).isLt
  have hplace := signedPlace_eq (.ofBitVec (signField x.toModel.toBits.toBitVec))
    (n := 2 ^ 52 * (exponentField x.toModel.toBits.toBitVec).toNat + (mantissaField x.toModel.toBits.toBitVec).toNat)
    (by omega)
  rw [toBitVec_ofBitVec, ← hfields] at hplace
  have hkey : orderKey x = if (parts x).isNaN then _ else _ := rfl
  rw [isFinite_iff] at h
  rw [hkey]
  generalize parts x = u at h hread
  cases hread with
  | infinity | notANumber => cases h
  | zero he hm =>
    rw [he, Nat.eq_zero_of_not_pos hm] at hplace
    exact hplace.symm
  | subnormal he hm =>
    rw [he] at hplace
    exact hplace.symm
  | normal he he' hm =>
    refine hplace.symm.trans (congrArg _ ?_)
    unfold place
    push_cast
    ring

theorem Reduced.place_lt_iff {m m' : ℕ} {e e' : ℤ} (h : Reduced m e) (h' : Reduced m' e') :
    place m e < place m' e' ↔ (m : ℚ) * 2 ^ e < m' * 2 ^ e' := by
  have hplace {m m' : ℕ} {e e' : ℤ} (h : Reduced m e) (h' : Reduced m' e') (he : e < e') :
      place m e < place m' e' := by
    obtain ⟨hm, hle, -⟩ := h
    have hlead := h'.leading
    unfold place
    omega
  rcases lt_trichotomy e e' with he | rfl | he
  · exact iff_of_true (hplace h h' he) (h.lt_of_exponent_lt h' he)
  · rw [mul_lt_mul_iff_left₀ (two_zpow_pos e), Nat.cast_lt, place, place]
    omega
  · exact iff_of_false (hplace h' h he).not_gt (h'.lt_of_exponent_lt h he).not_gt

theorem Reduced.place_pos {m : ℕ} {e : ℤ} (h : Reduced m e) (hm : 0 < m) : 0 < place m e := by
  have hle := h.le_exponent
  unfold place
  omega

theorem partsPlace_lt_iff {u v : UnpackedFloat} (hu : IsCanonical u) (hv : IsCanonical v) (hfu : u.isFinite = true)
    (hfv : v.isFinite = true) (hu' : u ≠ .zero .negative) (hv' : v ≠ .zero .negative) :
    partsPlace u < partsPlace v ↔ partsValue u < partsValue v := by
  cases u with
  | infinity | notANumber => cases hfu
  | zero s =>
    cases s with
    | negative => exact absurd rfl hu'
    | positive =>
      cases v with
      | infinity | notANumber => cases hfv
      | zero s' =>
        cases s' with
        | negative => exact absurd rfl hv'
        | positive => exact iff_of_false (lt_irrefl _) (lt_irrefl _)
      | finite s' m' e' hm' =>
        have hplace := hv.1.place_pos hm'
        have hpos := finite_pos hm' e'
        cases s' with
        | negative => exact iff_of_false (by change ¬ 0 < -1 - place m' e'; omega) (neg_neg_of_pos hpos).not_gt
        | positive => exact iff_of_true hplace hpos
  | finite s m e hm =>
    have hplace := hu.1.place_pos hm
    have hpos := finite_pos hm e
    cases v with
    | infinity | notANumber => cases hfv
    | zero s' =>
      cases s' with
      | negative => exact absurd rfl hv'
      | positive =>
        cases s with
        | negative => exact iff_of_true (by change -1 - place m e < 0; omega) (neg_neg_of_pos hpos)
        | positive => exact iff_of_false hplace.not_gt hpos.not_gt
    | finite s' m' e' hm' =>
      have hplace' := hv.1.place_pos hm'
      have hpos' := finite_pos hm' e'
      cases s with
      | negative =>
        cases s' with
        | negative =>
          change -1 - place m e < -1 - place m' e' ↔ -((m : ℚ) * 2 ^ e) < -(m' * 2 ^ e')
          rw [neg_lt_neg_iff, ← hv.1.place_lt_iff hu.1, sub_lt_sub_iff_left]
        | positive =>
          exact iff_of_true (by change -1 - place m e < place m' e'; omega) ((neg_neg_of_pos hpos).trans hpos')
      | positive =>
        cases s' with
        | negative =>
          exact iff_of_false (by change ¬ place m e < -1 - place m' e'; omega)
            ((neg_neg_of_pos hpos').trans hpos).not_gt
        | positive => exact hu.1.place_lt_iff hv.1

theorem totalCompare_eq {x y : Float} (hx : x.isFinite = true) (hy : y.isFinite = true)
    (hx' : parts x ≠ .zero .negative) (hy' : parts y ≠ .zero .negative) :
    totalCompare x y = compare (value x) (value y) := by
  have hlt : orderKey x < orderKey y ↔ value x < value y := by
    rw [orderKey_eq hx, orderKey_eq hy]
    exact partsPlace_lt_iff (isCanonical_parts x) (isCanonical_parts y) hx hy hx' hy'
  have hgt : orderKey y < orderKey x ↔ value y < value x := by
    rw [orderKey_eq hx, orderKey_eq hy]
    exact partsPlace_lt_iff (isCanonical_parts y) (isCanonical_parts x) hy hx hy' hx'
  unfold totalCompare
  rcases lt_trichotomy (value x) (value y) with h | h | h
  · rw [compare_lt_iff_lt.mpr h, compare_lt_iff_lt, hlt]
    exact h
  · rw [compare_eq_iff_eq.mpr h, compare_eq_iff_eq]
    exact le_antisymm (not_lt.mp (hgt.not.mpr h.le.not_gt)) (not_lt.mp (hlt.not.mpr h.ge.not_gt))
  · rw [compare_gt_iff_gt.mpr h, compare_gt_iff_gt]
    exact hgt.mpr h

end FixedNet.Binary64

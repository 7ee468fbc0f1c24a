import Mathlib
import FixedNet.Binary64.Basic

namespace FixedNet.Binary64

open Float.Model (UnpackedFloat)
open Float.Model.UnpackedFloat (Sign packComponents unpackExponent_packComponents unpackMantissa_packComponents)

/-- At most 53 bits on a grid not below the subnormals, and the leading bit set above them. -/
structure Reduced (m : ℕ) (e : ℤ) : Prop where
  mantissa_lt : m < 2 ^ 53
  le_exponent : -1074 ≤ e
  leading : 2 ^ 52 ≤ m ∨ e = -1074

/-- Parts that a bit pattern can hold. -/
def IsCanonical : UnpackedFloat → Prop
  | .finite _ m e _ => Reduced m e ∧ e ≤ 971
  | _ => True

def signField (b : BitVec 64) : BitVec 1 := b.extractLsb' 63 1

def exponentField (b : BitVec 64) : BitVec 11 := b.extractLsb' 52 11

def mantissaField (b : BitVec 64) : BitVec 52 := b.extractLsb' 0 52

def joined (s : Sign) (e : BitVec 11) (m : BitVec 52) : BitVec 64 := packComponents .binary64 s e m

@[simp]
theorem signField_joined (s : Sign) (e : BitVec 11) (m : BitVec 52) : signField (joined s e m) = s.toBitVec := by
  ext i hi
  obtain rfl : i = 0 := by omega
  rw [signField, BitVec.getElem_extractLsb']
  change (s.toBitVec ++ e ++ m).getLsbD 63 = _
  rw [BitVec.getLsbD_append, BitVec.getLsbD_append]
  simp

@[simp]
theorem exponentField_joined (s : Sign) (e : BitVec 11) (m : BitVec 52) : exponentField (joined s e m) = e :=
  unpackExponent_packComponents

@[simp]
theorem mantissaField_joined (s : Sign) (e : BitVec 11) (m : BitVec 52) : mantissaField (joined s e m) = m :=
  unpackMantissa_packComponents

theorem ofBitVec_toBitVec (s : Sign) : Sign.ofBitVec s.toBitVec = s := by cases s <;> rfl

theorem toBitVec_ofBitVec (v : BitVec 1) : (Sign.ofBitVec v).toBitVec = v := by
  revert v
  decide

theorem joined_fields (b : BitVec 64) : joined (.ofBitVec (signField b)) (exponentField b) (mantissaField b) = b := by
  rw [joined, packComponents, toBitVec_ofBitVec]
  refine BitVec.eq_of_getLsbD_eq fun i hi ↦ ?_
  change (b.extractLsb' 63 1 ++ b.extractLsb' 52 11 ++ b.extractLsb' 0 52).getLsbD i = b.getLsbD i
  simp only [BitVec.getLsbD_append, BitVec.getLsbD_extractLsb']
  split_ifs with h1 h2
  · simp [h1]
  · simp [h2, show 52 + (i - 52) = i by omega]
  · obtain rfl : i = 63 := by change i < 64 at hi; omega
    simp

theorem toNat_implicit (m : BitVec 52) : (1#1 ++ m).toNat = 2 ^ 52 + m.toNat := by
  rw [BitVec.toNat_append, ← Nat.shiftLeft_add_eq_or_of_lt m.isLt]
  rfl

theorem finite_congr {s : Sign} {m m' : ℕ} {e e' : ℤ} {h : 0 < m} {h' : 0 < m'} (hm : m = m') (he : e = e') :
    UnpackedFloat.finite s m e h = .finite s m' e' h' := by
  subst hm he
  rfl

inductive Read (s : Sign) (e : BitVec 11) (m : BitVec 52) : UnpackedFloat → Prop
  | infinity (he : e = -1) (hm : m = 0) : Read s e m (.infinity s)
  | notANumber (he : e = -1) (hm : m ≠ 0) : Read s e m .notANumber
  | zero (he : e = 0) (hm : ¬ 0 < m.toNat) : Read s e m (.zero s)
  | subnormal (he : e = 0) (hm : 0 < m.toNat) : Read s e m (.finite s m.toNat (-1074) hm)
  | normal (he : e ≠ -1) (he' : e ≠ 0) (hm : 0 < 2 ^ 52 + m.toNat) :
      Read s e m (.finite s (2 ^ 52 + m.toNat) (e.toNat - 1075) hm)

theorem read_unpack (b : BitVec 64) :
    Read (.ofBitVec (signField b)) (exponentField b) (mantissaField b) (.unpack .binary64 b) := by
  unfold UnpackedFloat.unpack
  dsimp only
  split
  case isTrue he =>
    split
    case isTrue hm => exact .infinity he hm
    case isFalse hm => exact .notANumber he hm
  case isFalse he =>
    split
    case isTrue he' =>
      split
      case isTrue hm => exact .zero he' fun h ↦ h.ne' (congrArg BitVec.toNat hm)
      case isFalse hm =>
        have hpos : 0 < (mantissaField b).toNat := by
          rw [Nat.pos_iff_ne_zero]
          exact fun h ↦ hm (BitVec.eq_of_toNat_eq h)
        have hexp : ((exponentField b).toNat : ℤ) = 0 := congrArg (fun v : BitVec 11 ↦ (v.toNat : ℤ)) he'
        refine (congrArg (Read _ _ _) (finite_congr rfl ?_)).mpr (.subnormal he' hpos)
        change ((exponentField b).toNat : ℤ) - (1023 + 52) + 1 = -1074
        omega
    case isFalse he' =>
      refine (congrArg (Read _ _ _) (finite_congr (toNat_implicit _) ?_)).mpr (.normal he he' (by positivity))
      change ((exponentField b).toNat : ℤ) - (1023 + 52) = (exponentField b).toNat - 1075
      omega

theorem Read.unique {s : Sign} {e : BitVec 11} {m : BitVec 52} {u v : UnpackedFloat} (hu : Read s e m u)
    (hv : Read s e m v) : u = v := by
  cases hu <;> cases hv <;> first | rfl | contradiction | simp_all

theorem isCanonical_parts (x : Float) : IsCanonical (parts x) := by
  have h : Read _ _ _ (parts x) := read_unpack x.toModel.toBits.toBitVec
  generalize parts x = u at h
  have hm := (mantissaField x.toModel.toBits.toBitVec).isLt
  have he := (exponentField x.toModel.toBits.toBitVec).isLt
  cases h with
  | infinity | notANumber | zero => trivial
  | subnormal => exact ⟨⟨by omega, le_rfl, .inr rfl⟩, by omega⟩
  | normal he1 he0 =>
    have h0 : (exponentField x.toModel.toBits.toBitVec).toNat ≠ 0 := fun h ↦ he0 (BitVec.eq_of_toNat_eq h)
    have h1 : (exponentField x.toModel.toBits.toBitVec).toNat ≠ 2047 := fun h ↦ he1 (BitVec.eq_of_toNat_eq h)
    exact ⟨⟨by omega, by omega, .inl (by omega)⟩, by omega⟩

theorem parts_ofParts_eq (u : UnpackedFloat) :
    parts (ofParts u) = .unpack .binary64 (UnpackedFloat.pack .binary64 u) := rfl

theorem unpack_joined {s : Sign} {e : BitVec 11} {m : BitVec 52} {u : UnpackedFloat} (h : Read s e m u) :
    UnpackedFloat.unpack .binary64 (joined s e m) = u := by
  have hr := read_unpack (joined s e m)
  rw [signField_joined, exponentField_joined, mantissaField_joined, ofBitVec_toBitVec] at hr
  exact hr.unique h

theorem log2_of_normal {m : ℕ} (hm : 2 ^ 52 ≤ m) (hm' : m < 2 ^ 53) : m.log2 = 52 :=
  (Nat.log2_eq_iff (by omega)).mpr ⟨hm, hm'⟩

theorem biased_eq (e : ℤ) : (e + Float.Model.Format.exponentBias .binary64 + (52 : ℕ)).toNat = (e + 1075).toNat := by
  change (e + 1023 + 52).toNat = _
  omega

theorem pack_normal {s : Sign} {m : ℕ} {e : ℤ} {h : 0 < m} (hm : 2 ^ 52 ≤ m) (hm' : m < 2 ^ 53) (he : -1075 ≤ e)
    (he' : e ≤ 971) : UnpackedFloat.pack .binary64 (.finite s m e h) =
      joined s (BitVec.ofNat 11 (e + 1075).toNat) (BitVec.ofNat 52 m) := by
  unfold UnpackedFloat.pack
  dsimp only
  rw [biased_eq, if_neg (by norm_num; omega), if_pos (by rw [log2_of_normal hm hm']; rfl)]
  rfl

theorem pack_subnormal {s : Sign} {m : ℕ} {h : 0 < m} (hm : m < 2 ^ 52) :
    UnpackedFloat.pack .binary64 (.finite s m (-1074) h) = joined s 0 (BitVec.ofNat 52 m) := by
  have hlog : m.log2 < 52 := (Nat.log2_lt h.ne').mpr hm
  unfold UnpackedFloat.pack
  dsimp only
  rw [biased_eq, if_neg (by norm_num), if_neg (by change ¬ m.log2 + 1 = 53; omega)]
  rfl

theorem pack_of_lt {s : Sign} {m : ℕ} {e : ℤ} {h : 0 < m} (he : 971 < e) :
    UnpackedFloat.pack .binary64 (.finite s m e h) = UnpackedFloat.pack .binary64 (.infinity s) := by
  unfold UnpackedFloat.pack
  dsimp only
  rw [biased_eq, if_pos (by norm_num; omega)]

/-- What can be held is held. -/
theorem parts_ofParts {u : UnpackedFloat} (h : IsCanonical u) : parts (ofParts u) = u := by
  rw [parts_ofParts_eq]
  cases u with
  | infinity s => exact unpack_joined (.infinity rfl rfl)
  | notANumber => exact unpack_joined (.notANumber rfl (by decide))
  | zero s => exact unpack_joined (.zero rfl (by decide))
  | finite s m e hpos =>
    obtain ⟨hr, he⟩ := h
    have hlt := hr.mantissa_lt
    have hle := hr.le_exponent
    by_cases hm : 2 ^ 52 ≤ m
    · rw [pack_normal hm hlt (by omega) he]
      have hfield : (BitVec.ofNat 11 (e + 1075).toNat).toNat = (e + 1075).toNat := by
        rw [BitVec.toNat_ofNat, Nat.mod_eq_of_lt (by omega)]
      have hmant : 2 ^ 52 + (BitVec.ofNat 52 m).toNat = m := by
        rw [BitVec.toNat_ofNat]
        omega
      rw [unpack_joined (.normal ?_ ?_ (by positivity))]
      · exact finite_congr hmant (by rw [hfield]; omega)
      · intro h
        have h := congrArg BitVec.toNat h
        rw [hfield] at h
        change _ = 2047 at h
        omega
      · intro h
        have h := congrArg BitVec.toNat h
        rw [hfield] at h
        change _ = 0 at h
        omega
    · obtain rfl := hr.leading.resolve_left hm
      have hmant : (BitVec.ofNat 52 m).toNat = m := by
        rw [BitVec.toNat_ofNat, Nat.mod_eq_of_lt (by omega)]
      rw [pack_subnormal (by omega), unpack_joined (.subnormal rfl (by omega))]
      exact finite_congr hmant rfl

theorem parts_ofParts_of_lt {s : Sign} {m : ℕ} {e : ℤ} {h : 0 < m} (he : 971 < e) :
    parts (ofParts (.finite s m e h)) = .infinity s := by
  rw [parts_ofParts_eq, pack_of_lt he]
  exact unpack_joined (.infinity rfl rfl)

theorem pack_of_read {b : BitVec 64} {u : UnpackedFloat} (hv : Float.Model.Format.binary64.Valid b)
    (h : Read (.ofBitVec (signField b)) (exponentField b) (mantissaField b) u) :
    UnpackedFloat.pack .binary64 u = b := by
  have hb := joined_fields b
  have hm := (mantissaField b).isLt
  have he := (exponentField b).isLt
  cases h with
  | infinity he hm =>
    rw [he, hm] at hb
    exact hb
  | notANumber he hm => exact (hv.eq_packedNaN he hm).symm
  | zero he hm =>
    have hmant : mantissaField b = 0 := BitVec.eq_of_toNat_eq (Nat.eq_zero_of_not_pos hm)
    rw [he, hmant] at hb
    exact hb
  | subnormal he hpos =>
    rw [pack_subnormal hm, BitVec.ofNat_toNat, BitVec.setWidth_eq, ← he]
    exact hb
  | normal he1 he0 hpos =>
    have h0 : (exponentField b).toNat ≠ 0 := fun h ↦ he0 (BitVec.eq_of_toNat_eq h)
    have h1 : (exponentField b).toNat ≠ 2047 := fun h ↦ he1 (BitVec.eq_of_toNat_eq h)
    have hexp : ((exponentField b).toNat - 1075 + 1075 : ℤ).toNat = (exponentField b).toNat := by omega
    have hmant : BitVec.ofNat 52 (2 ^ 52 + (mantissaField b).toNat) = mantissaField b :=
      BitVec.eq_of_toNat_eq (by rw [BitVec.toNat_ofNat]; omega)
    rw [pack_normal (by omega) (by omega) (by omega) (by omega), hexp, hmant, BitVec.ofNat_toNat, BitVec.setWidth_eq]
    exact hb

/-- A number is what its parts make. -/
theorem ofParts_parts (x : Float) : ofParts (parts x) = x := by
  obtain ⟨⟨bits, valid⟩⟩ := x
  have h : UnpackedFloat.pack .binary64 (parts ⟨⟨bits, valid⟩⟩) = bits.toBitVec :=
    pack_of_read valid (read_unpack bits.toBitVec)
  unfold ofParts Float.Model.pack
  congr 2
  exact congrArg UInt64.ofBitVec h

theorem parts_injective : Function.Injective parts := fun x y h ↦ by rw [← ofParts_parts x, h, ofParts_parts]

end FixedNet.Binary64

import FixedNet.Inference.Table
import FixedNet.Proofs.Binary64.Count
import FixedNet.Proofs.Binary64.Factors
import FixedNet.Proofs.Inference.Compiled

namespace FixedNet

namespace Binary64

def ExpFinite : Prop := ∀ x : Float, x.isFinite = true → x ≤ 0 → x.exp.isFinite = true

theorem nearest_value_mul_zpow {x : Float} (h : 1 ≤ value x) {k : ℤ} (hk : -1022 ≤ k) :
    nearest (value x * 2 ^ k) = value x * 2 ^ k := by
  have hpos : 0 < value x := by linarith
  have hlog : 0 ≤ Int.log 2 |value x| := by
    rwa [abs_of_pos hpos, ← zpow_le_iff hpos, zpow_zero]
  rw [nearest_mul_zpow hpos.ne' (by omega) (by omega), nearest_value]

theorem part_of_pow2 {e : ℤ} (hlo : -1022 ≤ e) (hhi : e < 960) {x y : Float} (hx : x.isFinite = true)
    (hy : y.isFinite = true) (h0 : 0 ≤ value x) (hone : 1 ≤ value y) (hxy : value x ≤ value y)
    (hle : |value x| ≤ 2 ^ (64 : ℤ)) :
    (pow2 e * x / y).isFinite = true ∧ 0 ≤ value (pow2 e * x / y) ∧ value (pow2 e * x / y) ≤ 2 ^ e := by
  have hpow := two_zpow_pos e
  obtain ⟨hrange, hrangeValue⟩ := pow2_exact (e := e) (by omega) (by omega)
  have hproductLe : |value (pow2 e) * value x| ≤ 2 ^ (e + 64) := by
    rw [hrangeValue, abs_mul, abs_of_pos hpow, zpow_add₀ two_ne_zero]
    exact mul_le_mul_of_nonneg_left hle hpow.le
  obtain ⟨hproduct, hproductValue, -⟩ := (isNearest_mul hrange hx).of_abs_le (by omega) (by omega) hproductLe
  have hproductNonneg : 0 ≤ value (pow2 e * x) := by
    rw [hproductValue, hrangeValue]
    exact nearest_nonneg (mul_nonneg hpow.le h0)
  have hproductLe' : value (pow2 e * x) ≤ value y * 2 ^ e := by
    rw [← nearest_value_mul_zpow hone hlo, hproductValue, hrangeValue, mul_comm]
    exact nearest_mono (mul_le_mul_of_nonneg_right hxy hpow.le)
  have hquotNonneg : 0 ≤ value (pow2 e * x) / value y := div_nonneg hproductNonneg (by linarith)
  have hquotLe : |value (pow2 e * x) / value y| ≤ 2 ^ e := by
    rw [abs_of_nonneg hquotNonneg, div_le_iff₀ (by linarith), mul_comm]
    exact hproductLe'
  obtain ⟨hquot, hquotValue, hbound⟩ :=
    (isNearest_div hproduct hy (by linarith)).of_abs_le (by omega) (by omega) hquotLe
  exact ⟨hquot, hquotValue ▸ nearest_nonneg hquotNonneg, (le_abs_self _).trans hbound⟩

def AtLeastOne (x : Float) : Prop := (x.isFinite = true ∧ 1 ≤ value x) ∨ parts x = .infinity .positive

theorem IsNearest.atLeastOne {x : Float} {q : ℚ} (h : IsNearest x q) (hq : 1 ≤ q) : AtLeastOne x := by
  rcases lt_or_ge |nearest q| (2 ^ (1024 : ℤ)) with hlt | hge
  · obtain ⟨hf, hv⟩ := h.of_lt hlt
    refine .inl ⟨hf, ?_⟩
    rw [hv, ← nearest_one]
    exact nearest_mono hq
  · have hparts := h.of_le hge
    rw [if_neg (by linarith)] at hparts
    exact .inr hparts

theorem atLeastOne_ofInt {n : ℕ} (h : n ≠ 0) : AtLeastOne (ofInt n) :=
  (isNearest_ofInt n).atLeastOne (by exact_mod_cast Nat.one_le_iff_ne_zero.mpr h)

theorem AtLeastOne.mul {x y : Float} (hx : AtLeastOne x) (hy : y.isFinite = true) (h : 1 ≤ value y) :
    AtLeastOne (x * y) := by
  rcases hx with ⟨hf, hle⟩ | hinf
  · exact (isNearest_mul hf hy).atLeastOne (one_le_mul_of_one_le_of_one_le hle h)
  · obtain ⟨m, e, hm, hp⟩ := parts_of_value_pos (show 0 < value y by linarith)
    have hparts : x * y = ofParts ((parts x).mul .binary64 (parts y)) := rfl
    rw [hinf, hp] at hparts
    right
    rw [hparts]
    exact parts_ofParts (u := .infinity .positive) trivial

theorem AtLeastOne.isFinite_div {x y : Float} (hy : AtLeastOne y) (hx : x.isFinite = true) :
    (x / y).isFinite = true := by
  rcases hy with ⟨hf, hle⟩ | hinf
  · have hpos : 0 < value y := by linarith
    have hquot : |value x / value y| ≤ |value x| := by
      rw [abs_div, abs_of_pos hpos]
      exact div_le_self (abs_nonneg _) hle
    refine ((isNearest_div hx hf hpos.ne').of_lt ?_).1
    rw [abs_nearest]
    refine (nearest_mono hquot).trans_lt ?_
    rw [← abs_nearest, nearest_value]
    exact abs_value_lt x
  · -- over infinity nothing is left but a zero
    have hquot : ∃ s, (parts x).div .binary64 (.infinity .positive) = .zero s := by
      rcases parts_cases hx with ⟨s, hp⟩ | ⟨s, m, e, hm, hp, -⟩ <;> rw [hp] <;> exact ⟨_, rfl⟩
    obtain ⟨s, hquot⟩ := hquot
    have hparts : x / y = ofParts ((parts x).div .binary64 (parts y)) := rfl
    rw [hinf, hquot] at hparts
    rw [isFinite_iff, hparts, parts_ofParts (u := .zero s) trivial]
    rfl

end Binary64

open Binary64 (nearest value pow2 ofInt)

theorem ExpTable.samplePoint_nonpos {size i : ℕ} (hsize : size < 2 ^ 64) (hi : i < size) {bits : ℤ} (hlo : -64 ≤ bits)
    (hhi : bits ≤ 128) : (samplePoint size (pow2 bits) i).isFinite = true ∧ samplePoint size (pow2 bits) i ≤ 0 := by
  suffices hpoint : (samplePoint size (pow2 bits) i).isFinite = true ∧ value (samplePoint size (pow2 bits) i) ≤ 0 by
    rw [Binary64.le_iff hpoint.1 Binary64.isFinite_zero, Binary64.value_zero]
    exact hpoint
  unfold samplePoint
  split
  · exact ⟨Binary64.isFinite_zero, Binary64.value_zero.le⟩
  · obtain ⟨hrange, hrangeValue⟩ := Binary64.pow2_exact (e := bits) (by omega) (by omega)
    obtain ⟨hindex, hindexValue, hindexLe⟩ := Binary64.ofInt_lt_word (n := i) (by omega)
    obtain ⟨hlast, -, -⟩ := Binary64.ofInt_lt_word (n := size - 1) (by omega)
    obtain ⟨hquot, hquotNonneg, hquotLe⟩ := Binary64.part_of_pow2 (e := bits) (by omega) (by omega) hindex hlast
      (hindexValue ▸ Binary64.nearest_nonneg (by positivity)) (Binary64.one_le_value_ofInt (by omega) (by omega))
      (Binary64.value_ofInt_mono (by omega) (by omega)) hindexLe
    have hneg : (-pow2 bits).isFinite = true := by rwa [Binary64.isFinite_neg]
    have hsumLe : |value (-pow2 bits) + value (pow2 bits * ofInt i / ofInt (size - 1 : ℕ))| ≤ 2 ^ bits := by
      rw [Binary64.value_neg, hrangeValue, abs_le]
      constructor <;> linarith
    obtain ⟨hsum, hsumValue, -⟩ := (Binary64.isNearest_add hneg hquot).of_abs_le (by omega) (by omega) hsumLe
    refine ⟨hsum, ?_⟩
    rw [hsumValue, Binary64.value_neg, hrangeValue, ← Binary64.nearest_zero]
    exact Binary64.nearest_mono (by linarith)

theorem toList_tableEntries (f : Format) (size : ℕ) (sample : ℕ → Float) :
    (tableEntries f size sample).map Array.toList =
      (List.range size).mapM fun i ↦ Fixed.ofFloat (f.withOverflow .saturate) (sample i) := by
  rw [← Array.toList_range, ← Array.toList_mapM]
  rfl

theorem exists_tableEntries {f : Format} {size : ℕ} {sample : ℕ → Float}
    (h : ∀ i < size, (sample i).isFinite = true) : ∃ entries, tableEntries f size sample = .ok entries := by
  obtain ⟨entries, hentries⟩ : ∃ entries, (List.range size).mapM
      (fun i ↦ Fixed.ofFloat (f.withOverflow .saturate) (sample i)) = .ok entries :=
    exists_mapM_eq_ok fun i hi ↦ ⟨_, Fixed.ofFloat_ok _ (h i (List.mem_range.mp hi))⟩
  rw [← toList_tableEntries] at hentries
  obtain ⟨xs, hxs, -⟩ := map_eq_ok_iff.mp hentries
  exact ⟨xs, hxs⟩

theorem isFinite_of_tableEntries {f : Format} {size i : ℕ} {sample : ℕ → Float} {entries : Array Fixed}
    (h : tableEntries f size sample = .ok entries) (hi : i < size) : (sample i).isFinite = true := by
  have hlist := toList_tableEntries f size sample
  rw [h] at hlist
  obtain ⟨y, -, hy⟩ := exists_of_mem_forall₂ (mapM_eq_ok_iff.mp hlist.symm).flip (List.mem_range.mpr hi)
  exact (Fixed.ofFloat_eq_ok_iff.mp hy).1

theorem InvTable.pos_of_make {size n : ℕ} {f : Format} {inv : InvTable} (hsize : size ≠ 0)
    (h : InvTable.make size (Binary64.ofInt n) f = .ok inv) : 0 < n := by
  refine Nat.pos_of_ne_zero ?_
  rintro rfl
  obtain ⟨entries, hentries, -⟩ := bind_eq_ok_iff.mp h
  have hfinite := isFinite_of_tableEntries hentries (Nat.pos_of_ne_zero hsize)
  have hzero : Binary64.parts (Binary64.ofInt (0 : ℕ) * Binary64.ofInt (0 + 1 : ℕ)) = .zero .positive := rfl
  rw [Binary64.not_isFinite_div hzero] at hfinite
  cases hfinite

theorem failsOnly_tableEntries (f : Format) (size : ℕ) (sample : ℕ → Float) :
    FailsOnly (fun e ↦ ∃ x, e = .nonFinite x) (tableEntries f size sample) := by
  have hofFloat (x : Float) :
      FailsOnly (fun e ↦ ∃ x, e = .nonFinite x) (Fixed.ofFloat (f.withOverflow .saturate) x) := by
    unfold Fixed.ofFloat
    dsimp only
    split
    · split <;> exact failsOnly_ok _
    · rintro e ⟨⟩
      exact ⟨x, rfl⟩
  intro e h
  refine FailsOnly.mapM (fun i _ ↦ hofFloat (sample i)) e ((toList_tableEntries f size sample).symm.trans ?_)
  rw [h]
  rfl

theorem ExpTable.exists_make (hexp : Binary64.ExpFinite) {size : ℕ} (hsize : size < 2 ^ 64) {bits : ℤ}
    (hlo : -64 ≤ bits) (hhi : bits ≤ 128) (f : Format) : ∃ exp, make size bits f = .ok exp := by
  have hfinite : ∀ i < size, ((samplePoint size (pow2 bits) i).exp).isFinite = true := by
    intro i hi
    obtain ⟨hpoint, hle⟩ := samplePoint_nonpos hsize hi hlo hhi
    exact hexp _ hpoint hle
  obtain ⟨entries, hentries⟩ := exists_tableEntries (f := f) hfinite
  exact ⟨_, bind_eq_ok_iff.mpr ⟨entries, hentries, rfl⟩⟩

theorem InvTable.exists_make {size features : ℕ} (hsize : size < 2 ^ 64) (hfeatures : features ≠ 0) (f : Format) :
    ∃ inv, make size (ofInt features) f = .ok inv := by
  have hfinite : ∀ j < size, (ofInt size / (ofInt features * ofInt (j + 1 : ℕ))).isFinite = true := by
    intro j hj
    have hindex := Binary64.one_le_value_ofInt j.succ_ne_zero (by omega)
    obtain ⟨hfinite, -, -⟩ := Binary64.ofInt_lt_word (n := j + 1) (by omega)
    exact ((Binary64.atLeastOne_ofInt hfeatures).mul hfinite hindex).isFinite_div (Binary64.ofInt_lt_word hsize).1
  obtain ⟨entries, hentries⟩ := exists_tableEntries (f := f) hfinite
  exact ⟨_, bind_eq_ok_iff.mpr ⟨entries, hentries, rfl⟩⟩

end FixedNet

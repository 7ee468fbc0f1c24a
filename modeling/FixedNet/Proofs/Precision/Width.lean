import FixedNet.Precision.Accumulator
import FixedNet.Proofs.Binary64.Nearest
import FixedNet.Proofs.Inference.Grid

namespace FixedNet

open Binary64 (two_zpow_pos)

namespace Width

def total (w : Width) : ℤ := w.integer + w.frac

def magnitude (w : Width) : ℤ := w.integer - if w.signed then 1 else 0

structure Holds (w : Width) (q : ℚ) : Prop where
  grid : ∃ n : ℤ, q = n * 2 ^ (-w.frac)
  lower : (if w.signed then -2 ^ w.magnitude else 0) ≤ q
  upper : q < 2 ^ w.magnitude

theorem exists_on_finer_grid {q : ℚ} {e e' : ℤ} (h : ∃ n : ℤ, q = n * 2 ^ (-e)) (he : e ≤ e') :
    ∃ n : ℤ, q = n * 2 ^ (-e') := by
  obtain ⟨n, rfl⟩ := h
  obtain ⟨k, hk⟩ := Int.eq_ofNat_of_zero_le (sub_nonneg.mpr he)
  refine ⟨n * 2 ^ k, ?_⟩
  push_cast
  rw [mul_assoc, ← zpow_natCast, ← zpow_add₀ two_ne_zero]
  congr 2
  omega

theorem Holds.mono {w w' : Width} {q : ℚ} (h : w.Holds q) (hsigned : w.signed = true → w'.signed = true)
    (hinteger : w.magnitude ≤ w'.magnitude) (hfrac : w.frac ≤ w'.frac) : w'.Holds q := by
  have hpow : (2 : ℚ) ^ w.magnitude ≤ 2 ^ w'.magnitude := zpow_le_zpow_right₀ one_le_two hinteger
  have hpos := two_zpow_pos w'.magnitude
  refine ⟨exists_on_finer_grid h.grid hfrac, ?_, h.upper.trans_le hpow⟩
  have hlower := h.lower
  cases hs : w.signed with
  | false =>
    rw [hs, if_neg Bool.false_ne_true] at hlower
    split <;> linarith
  | true =>
    rw [hs, if_pos rfl] at hlower
    rw [if_pos (hsigned hs)]
    linarith

theorem magnitude_ofFormat (f : Format) : (ofFormat f).magnitude = f.integer - if f.signed then 1 else 0 := rfl

theorem zpow_magnitude (f : Format) : (2 : ℚ) ^ (ofFormat f).magnitude = (f.rawMax + 1 : ℤ) * 2 ^ (-f.frac) := by
  have ht := f.total_bounds
  rw [magnitude_ofFormat]
  unfold Format.rawMax
  split <;> rw [sub_add_cancel] <;> push_cast <;> rw [← zpow_natCast, ← zpow_add₀ two_ne_zero] <;> congr 1 <;>
    unfold Format.frac <;> omega

theorem low_ofFormat (f : Format) :
    (if (ofFormat f).signed then -2 ^ (ofFormat f).magnitude else 0) = (f.rawMin : ℚ) * 2 ^ (-f.frac) := by
  rw [zpow_magnitude]
  change (if f.signed = true then _ else _) = _
  unfold Format.rawMin Format.rawMax
  split
  · rw [sub_add_cancel]
    push_cast
    ring
  · simp

/-- Values on the grid of a format. -/
theorem holds_of_onGrid {f : Format} {x : Fixed} (h : x.OnGrid f) : (ofFormat f).Holds x.value := by
  have hpos := two_zpow_pos (-f.frac)
  have hvalue : x.value = x.raw * 2 ^ (-f.frac) := by rw [Fixed.value, h.frac_eq]
  have hlo : (f.rawMin : ℚ) ≤ x.raw := by exact_mod_cast h.inRange.1
  have hhi : (x.raw : ℚ) < (f.rawMax + 1 : ℤ) := by exact_mod_cast Int.lt_add_one_of_le h.inRange.2
  refine ⟨⟨x.raw, hvalue⟩, ?_, ?_⟩
  · rw [low_ofFormat, hvalue]
    exact mul_le_mul_of_nonneg_right hlo hpos.le
  · rw [zpow_magnitude, hvalue]
    exact mul_lt_mul_of_pos_right hhi hpos

theorem Holds.abs_le_beside {f : Format} {q : ℚ} (h : (ofFormat f).Holds q) :
    |q| ≤ 2 ^ (f.integerBeside true - 1) := by
  have hlower := h.lower
  have hupper := h.upper
  rw [magnitude_ofFormat] at hlower hupper
  change (if f.signed = true then _ else _) ≤ q at hlower
  have hpos := two_zpow_pos (f.integerBeside true - 1)
  rw [abs_le]
  cases hs : f.signed <;> simp only [Format.integerBeside, hs, Bool.not_false, Bool.not_true, Bool.and_true,
    Bool.and_false, Bool.false_eq_true, if_true, if_false, add_sub_cancel_right, add_zero, sub_zero] at * <;>
    constructor <;> linarith

theorem product_holds {a b : Format} {x y : ℚ} (hx : (ofFormat a).Holds x) (hy : (ofFormat b).Holds y) :
    (product a b).Holds (x * y) := by
  have hgrid : ∃ n : ℤ, x * y = n * 2 ^ (-(a.frac + b.frac)) := by
    obtain ⟨m, rfl⟩ := hx.grid
    obtain ⟨n, rfl⟩ := hy.grid
    refine ⟨m * n, ?_⟩
    push_cast
    rw [neg_add, zpow_add₀ two_ne_zero]
    change (m : ℚ) * 2 ^ (-a.frac) * (n * 2 ^ (-b.frac)) = _
    ring
  cases hs : a.signed || b.signed with
  | false =>
    obtain ⟨ha, hb⟩ := Bool.or_eq_false_iff.mp hs
    have hx₁ := hx.lower
    have hx₂ := hx.upper
    have hy₁ := hy.lower
    have hy₂ := hy.upper
    have hw : product a b = ⟨a.integer + b.integer, a.frac + b.frac, false⟩ := by
      simp [product, hs, Format.integerBeside]
    simp only [magnitude, ofFormat, ha, hb, Bool.false_eq_true, if_false, sub_zero] at hx₁ hx₂ hy₁ hy₂
    rw [hw]
    refine ⟨hgrid, mul_nonneg hx₁ hy₁, ?_⟩
    simp only [magnitude, Bool.false_eq_true, if_false, sub_zero]
    rw [zpow_add₀ two_ne_zero]
    exact mul_lt_mul'' hx₂ hy₂ hx₁ hy₁
  | true =>
    have hw : product a b = ⟨a.integerBeside true + b.integerBeside true, a.frac + b.frac, true⟩ := by
      simp [product, hs]
    have hle : |x * y| ≤ 2 ^ (a.integerBeside true + b.integerBeside true - 1 - 1) := by
      rw [abs_mul]
      calc |x| * |y| ≤ 2 ^ (a.integerBeside true - 1) * 2 ^ (b.integerBeside true - 1) :=
            mul_le_mul hx.abs_le_beside hy.abs_le_beside (abs_nonneg y) (two_zpow_pos _).le
        _ = 2 ^ (a.integerBeside true + b.integerBeside true - 1 - 1) := by
            rw [← zpow_add₀ two_ne_zero]
            congr 1
            ring
    have hlt : (2 : ℚ) ^ (a.integerBeside true + b.integerBeside true - 1 - 1) <
        2 ^ (a.integerBeside true + b.integerBeside true - 1) := zpow_lt_zpow_right₀ one_lt_two (by omega)
    obtain ⟨hlo, hhi⟩ := abs_le.mp hle
    rw [hw]
    refine ⟨hgrid, ?_, ?_⟩ <;> simp only [magnitude, if_true] <;> linarith

theorem le_max?_getD {α : Type} (f : α → ℤ) {xs : List α} {x : α} (h : x ∈ xs) : f x ≤ (xs.map f).max?.getD 0 := by
  have hmem := List.mem_map_of_mem (f := f) h
  cases hmax : (xs.map f).max? with
  | none =>
    rw [List.max?_eq_none_iff] at hmax
    rw [hmax] at hmem
    cases hmem
  | some m => exact (List.max?_le_iff hmax).mp le_rfl _ hmem

theorem union_holds {fs : List Format} {f : Format} (hf : f ∈ fs) {q : ℚ} (h : (ofFormat f).Holds q) :
    (union fs).Holds q := by
  have hinteger := le_max?_getD (Format.integerBeside · (fs.any Format.signed)) hf
  refine h.mono (fun hs ↦ List.any_eq_true.mpr ⟨f, hf, hs⟩) ?_ (le_max?_getD Format.frac hf)
  dsimp only [magnitude, ofFormat, union]
  have hany : f.signed = true → fs.any Format.signed = true := fun hs ↦ List.any_eq_true.mpr ⟨f, hf, hs⟩
  unfold Format.integerBeside at hinteger
  unfold Format.integerBeside
  cases hs : f.signed <;> cases ha : fs.any Format.signed <;> simp_all

theorem union_total_pos {fs : List Format} (h : fs ≠ []) : 1 ≤ (union fs).total := by
  obtain ⟨f, hf⟩ := List.exists_mem_of_ne_nil fs h
  have hinteger := le_max?_getD (Format.integerBeside · (fs.any Format.signed)) hf
  have hfrac := le_max?_getD Format.frac hf
  have ht := f.total_bounds
  have hle : f.integer ≤ f.integerBeside (fs.any Format.signed) := by
    unfold Format.integerBeside
    split <;> omega
  have htotal : f.frac = f.total - f.integer := rfl
  dsimp only [total, union]
  omega

theorem product_total_pos (a b : Format) : 1 ≤ (product a b).total := by
  have ha := a.total_bounds
  have hb := b.total_bounds
  unfold total product Format.integerBeside Format.frac
  dsimp only
  split <;> split <;> omega

theorem ofFormat_total_pos (f : Format) : 1 ≤ (ofFormat f).total := by
  have hf := f.total_bounds
  dsimp only [total, ofFormat]
  unfold Format.frac
  omega

end Width

theorem le_two_pow_ceilLog2 (n : ℕ) : n ≤ 2 ^ ceilLog2 n := by
  unfold ceilLog2
  split
  · omega
  · have h := Nat.lt_log2_self (n := n - 1)
    omega

theorem ceilLog2_le {n k : ℕ} (h : n ≤ 2 ^ k) : ceilLog2 n ≤ k := by
  unfold ceilLog2
  split
  · exact Nat.zero_le k
  · have hlt := (Nat.log2_lt (n := n - 1) (k := k) (by omega)).mpr (by omega)
    omega

end FixedNet

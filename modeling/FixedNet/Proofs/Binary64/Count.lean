import FixedNet.Proofs.Binary64.Operations

namespace FixedNet.Binary64

theorem nearest_one : nearest 1 = 1 := by
  have h := nearest_zpow (e := 0) (by norm_num)
  rwa [zpow_zero] at h

/-- Up to a power of two nothing is rounded beyond it. -/
theorem IsNearest.of_abs_le {x : Float} {q : ℚ} (h : IsNearest x q) {e : ℤ} (hlo : -1074 ≤ e) (hhi : e < 1024)
    (hq : |q| ≤ 2 ^ e) : x.isFinite = true ∧ value x = nearest q ∧ |value x| ≤ 2 ^ e := by
  have hle : |nearest q| ≤ 2 ^ e := by
    rw [abs_nearest, ← nearest_zpow hlo]
    exact nearest_mono hq
  obtain ⟨hf, hv⟩ := h.of_lt (hle.trans_lt (zpow_lt_zpow_right₀ one_lt_two hhi))
  exact ⟨hf, hv, hv ▸ hle⟩

theorem ofInt_lt_word {n : ℕ} (h : n < 2 ^ 64) :
    (ofInt n).isFinite = true ∧ value (ofInt n) = nearest n ∧ |value (ofInt n)| ≤ 2 ^ (64 : ℤ) := by
  refine (isNearest_ofInt n).of_abs_le (by norm_num) (by norm_num) ?_
  rw [abs_of_nonneg (by positivity)]
  exact_mod_cast h.le

theorem value_ofInt_mono {m n : ℕ} (h : m ≤ n) (hn : n < 2 ^ 64) : value (ofInt m) ≤ value (ofInt n) := by
  rw [(ofInt_lt_word (h.trans_lt hn)).2.1, (ofInt_lt_word hn).2.1]
  exact nearest_mono (by exact_mod_cast h)

theorem one_le_value_ofInt {n : ℕ} (h : n ≠ 0) (hn : n < 2 ^ 64) : 1 ≤ value (ofInt n) := by
  have hone := value_ofInt_mono (Nat.one_le_iff_ne_zero.mpr h) hn
  rwa [(ofInt_lt_word (by norm_num : 1 < 2 ^ 64)).2.1, Nat.cast_one, nearest_one] at hone

end FixedNet.Binary64

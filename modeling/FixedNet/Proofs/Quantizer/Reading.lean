import FixedNet.Proofs.Numeric.Sample
import FixedNet.Proofs.Outcome
import FixedNet.Quantizer.OfCall

namespace FixedNet

def Alpha.Usable (alpha : Alpha) : Prop := ∀ a, alpha = .fixed a → a.isFinite = true ∧ 0 < a

theorem Alpha.usable_unit : unit.Usable := by
  intro a h
  cases h
  decide +kernel

def Quantizer.IsRead : Quantizer → Prop
  | uniform q => |q.integer| ≤ 2147483647
  | ternary q => (∀ a, q.alpha = .fixed a → a.isFinite = true) ∧ q.cut.isFinite = true
  | binary _ => True

theorem Binary64.abs_toInt_le (x : Float) : (|toInt x| : ℚ) ≤ |value x| := by
  unfold toInt
  split
  case h_1 s m e hm hx =>
    rw [value_of_parts hx, abs_signed, abs_of_pos (finite_pos hm e), signed_apply, abs_signed, Nat.abs_cast]
    split
    case isTrue he =>
      obtain ⟨k, rfl⟩ := Int.eq_ofNat_of_zero_le he
      simp
    case isFalse he =>
      have hk : ((-e).toNat : ℤ) = -e := Int.toNat_of_nonneg (by omega)
      refine Nat.cast_div_le.trans_eq ?_
      rw [div_eq_mul_inv]
      push_cast
      rw [← zpow_natCast, hk, zpow_neg, inv_inv]
  case h_2 => simp

namespace Call

variable {call : Call} {keyword : String} {position : ℕ}

theorem abs_le_of_intArg {default n : ℤ} (hdefault : |default| ≤ 2147483647)
    (h : call.intArg keyword position default = .ok n) : |n| ≤ 2147483647 := by
  unfold intArg at h
  split at h
  · cases h
    exact hdefault
  case h_2 x _ =>
    split at h
    case isTrue hx =>
      cases h
      rw [Bool.and_eq_true, Bool.and_eq_true, decide_eq_true_iff] at hx
      obtain ⟨⟨hfinite, -⟩, hle⟩ := hx
      have hlimit : (2147483647 : Float) = Binary64.ofInt 2147483647 := by decide +kernel
      obtain ⟨hlimitFinite, hlimitValue⟩ := Binary64.ofInt_exact (n := 2147483647) (by norm_num)
      rw [hlimit, Binary64.le_iff (by rwa [Binary64.isFinite_abs]) hlimitFinite, Binary64.value_abs, hlimitValue] at hle
      exact_mod_cast (Binary64.abs_toInt_le x).trans hle
    case isFalse => cases h
  · cases h

theorem usable_of_alphaArg {alpha : Alpha} (h : call.alphaArg position = .ok alpha) : alpha.Usable := by
  unfold alphaArg at h
  split at h
  · cases h
    exact Alpha.usable_unit
  · split at h
    case isTrue ha =>
      cases h
      intro a h
      cases h
      rwa [Bool.and_eq_true, decide_eq_true_iff] at ha
    case isFalse => cases h
  · cases h
    intro a h
    cases h
  · cases h
    exact Alpha.usable_unit
  · cases h

theorem isFinite_of_thresholdArg {threshold : Option Float} (h : call.thresholdArg position = .ok threshold) :
    (threshold.getD 0.33).isFinite = true := by
  have hdefault : (0.33 : Float).isFinite = true := by decide +kernel
  unfold thresholdArg at h
  split at h
  · cases h
    exact hdefault
  · cases h
    exact hdefault
  · split at h
    case isTrue ht =>
      cases h
      exact (Bool.and_eq_true _ _ ▸ ht).1
    case isFalse => cases h
  · cases h

end Call

theorem Uniform.integer_of_make {bits : ℕ} {integer : ℤ} {q : Uniform} (h : make bits integer = .ok q) :
    q.integer = integer := by
  unfold make at h
  split at h
  · cases h
    rfl
  · cases h

theorem Uniform.alpha_of_make {bits : ℕ} {integer : ℤ} {q : Uniform} (h : make bits integer = .ok q) :
    q.alpha = .unit := by
  unfold make at h
  split at h
  · cases h
    rfl
  · cases h

namespace Quantizer

/-- The quantizers that a call can denote, with the arguments that they are made of. -/
inductive Denoted (call : Call) : Quantizer → Prop
  | bits {bits : ℕ} {integer : ℤ} {made : Uniform} {symmetric keepNegative : Bool} {alpha : Alpha}
      (hbits : call.countArg "bits" 0 8 = .ok bits) (hinteger : call.intArg "integer" 1 0 = .ok integer)
      (hmade : Uniform.make bits integer = .ok made) (hsymmetric : call.flagArg "symmetric" 2 false = .ok symmetric)
      (hkeepNegative : call.flagArg "keep_negative" 3 true = .ok keepNegative) (halpha : call.alphaArg 4 = .ok alpha) :
      Denoted call (uniform { made with symmetric, keepNegative, alpha })
  | relu {bits : ℕ} {integer : ℤ} {made : Uniform} (hbits : call.countArg "bits" 0 8 = .ok bits)
      (hinteger : call.intArg "integer" 1 0 = .ok integer) (hmade : Uniform.make bits integer = .ok made) :
      Denoted call (uniform { made with keepNegative := false })
  | ternary {alpha : Alpha} {threshold : Option Float} (hthreshold : call.thresholdArg 1 = .ok threshold)
      (halpha : call.alphaArg 0 = .ok alpha) : Denoted call (ternary { alpha, threshold })
  | binary {alpha : Alpha} (halpha : call.alphaArg 1 = .ok alpha) : Denoted call (binary { xnor := true, alpha })
  | tanh : Denoted call (binary { xnor := false })

variable {call : Call} {text : String} {q : Quantizer}

theorem denoted_of_ofCall (h : ofCall call = .ok q) : Denoted call q := by
  unfold ofCall at h
  split at h
  · simp only [bind_eq_ok_iff, pure_eq_ok_iff] at h
    obtain ⟨-, -, -, -, bits, hbits, integer, hinteger, made, hmade, symmetric, hsymmetric, keepNegative,
      hkeepNegative, alpha, halpha, rfl⟩ := h
    exact .bits hbits hinteger hmade hsymmetric hkeepNegative halpha
  · simp only [bind_eq_ok_iff, pure_eq_ok_iff] at h
    obtain ⟨-, -, -, -, -, -, -, -, bits, hbits, integer, hinteger, u, hu, rfl⟩ := h
    obtain ⟨made, hmade, rfl⟩ := map_eq_ok_iff.mp hu
    exact .relu hbits hinteger hmade
  · simp only [bind_eq_ok_iff, pure_eq_ok_iff] at h
    obtain ⟨-, -, -, -, threshold, hthreshold, alpha, halpha, rfl⟩ := h
    exact .ternary hthreshold halpha
  · simp only [bind_eq_ok_iff, pure_eq_ok_iff] at h
    obtain ⟨-, -, -, -, -, -, alpha, halpha, rfl⟩ := h
    exact .binary halpha
  · simp only [bind_eq_ok_iff, pure_eq_ok_iff] at h
    obtain ⟨-, -, rfl⟩ := h
    exact .tanh
  · cases h

theorem exists_denoted_of_read (h : read text = .ok q) : ∃ call, Denoted call q := by
  unfold read at h
  split at h
  · exact ⟨_, denoted_of_ofCall h⟩
  · cases h

theorem Denoted.isRead (h : Denoted call q) : q.IsRead := by
  have hinteger {integer : ℤ} {bits : ℕ} {made : Uniform} (hinteger : call.intArg "integer" 1 0 = .ok integer)
      (hmade : Uniform.make bits integer = .ok made) : |made.integer| ≤ 2147483647 := by
    rw [Uniform.integer_of_make hmade]
    exact Call.abs_le_of_intArg (by norm_num) hinteger
  cases h with
  | bits _ h hmade => exact (hinteger h hmade :)
  | relu _ h hmade => exact (hinteger h hmade :)
  | ternary hthreshold halpha =>
    exact ⟨fun a ha ↦ (Call.usable_of_alphaArg halpha a ha).1, Call.isFinite_of_thresholdArg hthreshold⟩
  | binary => trivial
  | tanh => trivial

theorem Denoted.usable (h : Denoted call q) : q.alpha.Usable := by
  cases h with
  | bits _ _ _ _ _ halpha => exact Call.usable_of_alphaArg halpha
  | @relu _ _ made _ _ hmade =>
    change made.alpha.Usable
    rw [Uniform.alpha_of_make hmade]
    exact Alpha.usable_unit
  | ternary _ halpha => exact Call.usable_of_alphaArg halpha
  | binary halpha => exact Call.usable_of_alphaArg halpha
  | tanh => exact Alpha.usable_unit

theorem isRead_of_read (h : read text = .ok q) : q.IsRead := by
  obtain ⟨call, hcall⟩ := exists_denoted_of_read h
  exact hcall.isRead

theorem usable_of_read (h : read text = .ok q) : q.alpha.Usable := by
  obtain ⟨call, hcall⟩ := exists_denoted_of_read h
  exact hcall.usable

end Quantizer

end FixedNet

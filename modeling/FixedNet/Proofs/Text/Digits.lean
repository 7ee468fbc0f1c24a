import FixedNet.Proofs.Text.Pieces
import FixedNet.Text.Integer

namespace FixedNet.Text

variable {c : Char} {cs : List Char} {bits n : ℕ} {z : ℤ}

theorem ne_of_isDigit (h : c.isDigit = true) {d : Char} (hd : d.isDigit = false) : c ≠ d := by
  rintro rfl
  rw [h] at hd
  cases hd

theorem isBlank_of_isDigit (h : c.isDigit = true) : isBlank c = false :=
  isBlank_eq_false_iff.mpr (not_mem_of_all (by decide) h)

theorem isDigit_of_mem_toDigits (h : c ∈ Nat.toDigits 10 n) : c.isDigit = true :=
  Nat.isDigit_of_mem_toDigits (by norm_num) le_rfl h

theorem readDigits_of_forall (hne : cs ≠ []) (h : ∀ c ∈ cs, c.isDigit = true) :
    readDigits cs = some (Nat.ofDigitChars 10 cs 0) := by
  have hall : cs.all Char.isDigit = true := List.all_eq_true.mpr h
  rw [readDigits, if_neg (by simpa [hall] using hne)]
  rfl

theorem readDigits_toDigits (n : ℕ) : readDigits (Nat.toDigits 10 n) = some n := by
  rw [readDigits_of_forall Nat.toDigits_ne_nil fun c hc ↦ isDigit_of_mem_toDigits hc, Nat.ofDigitChars_ten_toDigits]

theorem readInt_of_forall (h : ∀ c ∈ cs, c.isDigit = true) : readInt cs = (readDigits cs).map Int.ofNat := by
  unfold readInt
  split
  · exact absurd (h '-' List.mem_cons_self) (by decide)
  · exact absurd (h '+' List.mem_cons_self) (by decide)
  · rfl

theorem readInt_neg (cs : List Char) : readInt ('-' :: cs) = (readDigits cs).map fun n : ℕ ↦ -(n : ℤ) := by
  change ((readDigits cs).bind fun n ↦ some (n : ℤ)).map _ = _
  cases readDigits cs <;> rfl

theorem toList_toString (n : ℕ) : (toString n).toList = Nat.toDigits 10 n := by
  rw [Nat.toString_eq_ofList_toDigits, String.toList_ofList]

theorem toList_toString_int (z : ℤ) :
    (toString z).toList = (if z < 0 then ['-'] else []) ++ Nat.toDigits 10 z.natAbs := by
  cases z with
  | ofNat n => exact toList_toString n
  | negSucc n =>
    change ("-" ++ toString (n + 1)).toList = _
    rw [String.toList_append, toList_toString, if_pos (Int.negSucc_lt_zero n)]
    rfl

theorem readInt_toDigits (n : ℕ) : readInt (Nat.toDigits 10 n) = some (n : ℤ) := by
  rw [readInt_of_forall fun c hc ↦ isDigit_of_mem_toDigits hc, readDigits_toDigits]
  rfl

theorem readInt_toString (z : ℤ) : readInt (toString z).toList = some z := by
  rw [toList_toString_int]
  split
  case isTrue hz =>
    rw [List.singleton_append, readInt_neg, readDigits_toDigits, Option.map_some, Option.some_inj]
    omega
  case isFalse hz =>
    rw [List.nil_append, readInt_toDigits, Int.natAbs_of_nonneg (not_lt.mp hz)]

theorem readNat_toDigits (n : ℕ) : readNat (Nat.toDigits 10 n) = some n := by
  unfold readNat
  split
  case h_1 cs hcs =>
    have hplus : '+' ∈ Nat.toDigits 10 n := hcs ▸ List.mem_cons_self
    exact absurd (isDigit_of_mem_toDigits hplus) (by decide)
  case h_2 => exact readDigits_toDigits n

theorem readUnsigned_toDigits (h : n < 2 ^ bits) : readUnsigned bits (Nat.toDigits 10 n) = some n := by
  rw [readUnsigned, readNat_toDigits, Option.filter_some]
  simpa using h

theorem readSigned_eq (h : readInt cs = some z) :
    readSigned bits cs = if -(2 ^ (bits - 1)) ≤ z ∧ z < 2 ^ (bits - 1) then some z else none := by
  rw [readSigned, h, Option.filter_some]
  simp

end FixedNet.Text

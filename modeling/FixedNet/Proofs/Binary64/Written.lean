import FixedNet.Proofs.Binary64.Shortest
import FixedNet.Proofs.Text.Digits

namespace FixedNet.Binary64

open Float.Model (UnpackedFloat)
open Float.Model.UnpackedFloat (Sign)
open Text (isDigit_of_mem_toDigits ne_of_isDigit readDigits_of_forall)

variable {c : Char} {cs whole fraction : List Char} {d : Decimal} {x : Float}

theorem takeWhile_digits (h : ∀ c ∈ cs, c.isDigit = true) : cs.takeWhile Char.isDigit = cs :=
  List.takeWhile_eq_self_iff.mpr h

theorem dropWhile_digits (h : ∀ c ∈ cs, c.isDigit = true) : cs.dropWhile Char.isDigit = [] :=
  List.dropWhile_eq_nil_iff.mpr h

theorem readDecimal_of_forall (hne : cs ≠ []) (h : ∀ c ∈ cs, c.isDigit = true) :
    readDecimal cs = some ⟨Nat.ofDigitChars 10 cs 0, 0⟩ := by
  unfold readDecimal
  dsimp only
  rw [takeWhile_digits h, dropWhile_digits h]
  simp [readDigits_of_forall hne h, readExponent]

theorem readDecimal_point (hne : whole ≠ []) (h : ∀ c ∈ whole, c.isDigit = true)
    (h' : ∀ c ∈ fraction, c.isDigit = true) : readDecimal (whole ++ '.' :: fraction) =
      some ⟨Nat.ofDigitChars 10 (whole ++ fraction) 0, -fraction.length⟩ := by
  have htake : (whole ++ '.' :: fraction).takeWhile Char.isDigit = whole := by
    rw [List.takeWhile_append_of_pos h]
    simp
  have hdrop : (whole ++ '.' :: fraction).dropWhile Char.isDigit = '.' :: fraction := by
    rw [List.dropWhile_append_of_pos h]
    simp
  have hall : ∀ c ∈ whole ++ fraction, c.isDigit = true := fun c hc ↦
    (List.mem_append.mp hc).elim (h c) (h' c)
  unfold readDecimal
  dsimp only
  rw [htake, hdrop]
  simp [readDigits_of_forall (List.append_ne_nil_of_left_ne_nil hne _) hall, readExponent, takeWhile_digits h',
    dropWhile_digits h']

/-- Digits with at most one point between them, and the rational that they denote. -/
inductive Spells : List Char → ℚ → Prop
  | whole {whole : List Char} :
      whole ≠ [] → (∀ c ∈ whole, c.isDigit = true) → Spells whole (Nat.ofDigitChars 10 whole 0 : ℕ)
  | point {whole fraction : List Char} :
      whole ≠ [] → (∀ c ∈ whole, c.isDigit = true) → (∀ c ∈ fraction, c.isDigit = true) →
      Spells (whole ++ '.' :: fraction) ((Nat.ofDigitChars 10 (whole ++ fraction) 0 : ℕ) * 10 ^ (-fraction.length : ℤ))

theorem Spells.readDecimal {q : ℚ} (h : Spells cs q) : ∃ d, readDecimal cs = some d ∧ d.value = q := by
  cases h with
  | whole hne h =>
    refine ⟨_, readDecimal_of_forall hne h, ?_⟩
    rw [Decimal.value, zpow_zero, mul_one]
  | point hne h h' => exact ⟨_, readDecimal_point hne h h', rfl⟩

theorem Spells.head {q : ℚ} (h : Spells cs q) : ∃ c, cs.head? = some c ∧ c.isDigit = true := by
  cases h with
  | whole hne h =>
    obtain ⟨c, cs, rfl⟩ := List.exists_cons_of_ne_nil hne
    exact ⟨c, rfl, h c List.mem_cons_self⟩
  | point hne h h' =>
    obtain ⟨c, cs, rfl⟩ := List.exists_cons_of_ne_nil hne
    exact ⟨c, rfl, h c List.mem_cons_self⟩

theorem Spells.isDigit_or_eq {q : ℚ} (h : Spells cs q) (hc : c ∈ cs) : c.isDigit = true ∨ c = '.' := by
  cases h with
  | whole hne h => exact .inl (h c hc)
  | point hne h h' =>
    rcases List.mem_append.mp hc with hc | hc
    · exact .inl (h c hc)
    · rcases List.mem_cons.mp hc with rfl | hc
      · exact .inr rfl
      · exact .inl (h' c hc)

theorem isDigit_of_mem_replicate {n : ℕ} (h : c ∈ List.replicate n '0') : c.isDigit = true := by
  rw [List.eq_of_mem_replicate h]
  rfl

theorem spells_positional (d : Decimal) : Spells d.positional d.value := by
  have hdigits : ∀ c ∈ Nat.toDigits 10 d.digits, c.isDigit = true := fun c ↦ isDigit_of_mem_toDigits
  unfold Decimal.positional Decimal.value
  dsimp only
  split
  case isTrue he =>
    have hvalue : (d.digits : ℚ) * 10 ^ d.exponent =
        (Nat.ofDigitChars 10 (Nat.toDigits 10 d.digits ++ List.replicate d.exponent.toNat '0') 0 : ℕ) := by
      rw [Nat.ofDigitChars_append, Nat.ofDigitChars_ten_toDigits, Nat.ofDigitChars_replicate_zero, mul_comm]
      push_cast
      rw [← zpow_natCast, Int.toNat_of_nonneg he]
    rw [hvalue]
    refine .whole (List.append_ne_nil_of_left_ne_nil Nat.toDigits_ne_nil _) fun c hc ↦ ?_
    exact (List.mem_append.mp hc).elim (hdigits c) isDigit_of_mem_replicate
  case isFalse he =>
    generalize hplaces : (-d.exponent).toNat = places
    rw [show d.exponent = -(places : ℤ) by omega]
    have hspells {whole fraction : List Char} (hne : whole ≠ []) (h : ∀ c ∈ whole, c.isDigit = true)
        (h' : ∀ c ∈ fraction, c.isDigit = true) (hlen : fraction.length = places)
        (hnumber : Nat.ofDigitChars 10 (whole ++ fraction) 0 = d.digits) :
        Spells (whole ++ '.' :: fraction) (d.digits * 10 ^ (-places : ℤ)) := by
      rw [← hnumber, ← hlen]
      exact .point hne h h'
    split
    case isTrue hlen =>
      refine hspells ?_ (fun c hc ↦ hdigits c (List.mem_of_mem_take hc))
        (fun c hc ↦ hdigits c (List.mem_of_mem_drop hc))
        ?_ ?_
      · exact List.ne_nil_of_length_pos (by rw [List.length_take]; omega)
      · rw [List.length_drop]
        omega
      · rw [List.take_append_drop, Nat.ofDigitChars_ten_toDigits]
    case isFalse hlen =>
      refine @hspells ['0'] (List.replicate (places - (Nat.toDigits 10 d.digits).length) '0' ++
        Nat.toDigits 10 d.digits) (by simp) (by simp) ?_ ?_ ?_
      · intro c hc
        exact (List.mem_append.mp hc).elim isDigit_of_mem_replicate (hdigits c)
      · rw [List.length_append, List.length_replicate]
        omega
      · rw [List.singleton_append, Nat.ofDigitChars_cons, Nat.ofDigitChars_append, Nat.ofDigitChars_replicate_zero]
        exact Nat.ofDigitChars_ten_toDigits

theorem toLower_of_isDigit (h : c.isDigit = true) : c.toLower = c := by
  refine Char.toLower_eq_of_not_isUpper ?_
  simp only [Char.isDigit, Char.isUpper, Bool.and_eq_true, decide_eq_true_eq, ge_iff_le, UInt32.le_iff_toNat_le,
    not_and, not_le] at h ⊢
  intro hupper
  exact absurd (hupper.trans h.2) (by decide)

theorem readMagnitude_of_head (h : cs.head? = some c) (hi : c.toLower ≠ 'i') (hn : c.toLower ≠ 'n') :
    readMagnitude cs = (readDecimal cs).map Decimal.toFloat := by
  have hlower {word : List Char} (hword : String.ofList (Text.lower cs) = String.ofList word) :
      word.head? = some c.toLower := by
    rw [← String.ofList_injective hword, Text.lower, List.head?_map, h, Option.map_some]
  unfold readMagnitude
  split
  case h_1 hword => exact absurd (Option.some.inj (@hlower "inf".toList hword)).symm hi
  case h_2 hword => exact absurd (Option.some.inj (@hlower "infinity".toList hword)).symm hi
  case h_3 hword => exact absurd (Option.some.inj (@hlower "nan".toList hword)).symm hn
  case h_4 => rfl

theorem read?_of_head (h : cs.head? = some c) (hc : c.isDigit = true) : read? cs = readMagnitude cs := by
  unfold read?
  split
  case h_1 =>
    cases h
    cases hc
  case h_2 =>
    cases h
    cases hc
  case h_3 => rfl

theorem toFloat_of_contained {m : ℕ} {e : ℤ} {hm : 0 < m} (h : IsCanonical (.finite .positive m e hm))
    (hd : nearest d.value = m * 2 ^ e) : d.toFloat = ofParts (.finite .positive m e hm) := by
  obtain ⟨hreduced, he⟩ := h
  have hpos := finite_pos hm e
  have hdigits : 0 < d.digits := by
    rw [Nat.pos_iff_ne_zero]
    intro h0
    rw [Decimal.value, h0, Nat.cast_zero, zero_mul, nearest_zero] at hd
    exact hpos.ne hd
  have hlt : |nearest d.value| < 2 ^ (1024 : ℤ) := by
    rw [hd, abs_of_pos hpos]
    exact hreduced.mul_lt.trans_le (zpow_le_zpow_right₀ one_le_two (by omega))
  have hvalue : value d.toFloat = m * 2 ^ e := ((isNearest_toFloat hdigits).of_lt hlt).2.trans hd
  have hvalue' : value (ofParts (.finite .positive m e hm)) = m * 2 ^ e :=
    value_of_parts (parts_ofParts ⟨hreduced, he⟩)
  exact eq_of_value_eq (by rw [hvalue]; exact hpos.ne') (hvalue.trans hvalue'.symm)

theorem Spells.readMagnitude_eq {q : ℚ} (h : Spells cs q) :
    readMagnitude cs = (Binary64.readDecimal cs).map Decimal.toFloat := by
  obtain ⟨c, hhead, hc⟩ := h.head
  refine readMagnitude_of_head hhead ?_ ?_ <;> rw [toLower_of_isDigit hc] <;> exact ne_of_isDigit hc rfl

theorem Spells.read?_eq {q : ℚ} (h : Spells cs q) : read? cs = readMagnitude cs := by
  obtain ⟨c, hhead, hc⟩ := h.head
  exact read?_of_head hhead hc

theorem readMagnitude_positional {m : ℕ} {e : ℤ} {hm : 0 < m} (h : IsCanonical (.finite .positive m e hm)) :
    readMagnitude (interval m e).shortest.positional = some (ofParts (.finite .positive m e hm)) := by
  have hspells := spells_positional (interval m e).shortest
  obtain ⟨d, hread, hvalue⟩ := hspells.readDecimal
  have hnearest := nearest_of_contains h.1 hm (shortest_contained h.1 hm)
  rw [← hvalue] at hnearest
  rw [hspells.readMagnitude_eq, hread, Option.map_some, toFloat_of_contained h hnearest]

theorem neg_ofParts {u : UnpackedFloat} (h : IsCanonical u) (h' : IsCanonical u.neg) :
    (ofParts u).neg = ofParts u.neg := by
  refine parts_injective ?_
  change parts (-ofParts u) = _
  rw [parts_neg, parts_ofParts h, parts_ofParts h']

theorem read?_signText {u : UnpackedFloat} (hu : IsCanonical u) (hu' : IsCanonical u.neg)
    (h : read? cs = readMagnitude cs) (hread : readMagnitude cs = some (ofParts u)) (s : Sign) :
    read? (signText s ++ cs) = some (ofParts (match s with | .negative => u.neg | .positive => u)) := by
  cases s with
  | negative =>
    change (readMagnitude cs).map Float.neg = _
    rw [hread, Option.map_some, neg_ofParts hu hu']
  | positive => exact h.trans hread

theorem toFloat_zero : Decimal.toFloat ⟨0, 0⟩ = ofParts (.zero .positive) := by decide +kernel

theorem read?_chars (x : Float) : read? (chars x) = some x := by
  have hcanonical := isCanonical_parts x
  have hx := ofParts_parts x
  unfold chars
  generalize parts x = u at hcanonical hx
  rw [← hx]
  cases u with
  | notANumber => rfl
  | infinity s =>
    have hword : read? "inf".toList = readMagnitude "inf".toList := rfl
    have h := read?_signText (u := .infinity .positive) trivial trivial hword rfl s
    cases s <;> exact h
  | zero s =>
    have hread : readMagnitude ['0'] = some (ofParts (.zero .positive)) := by
      rw [← toFloat_zero]
      rfl
    have h := read?_signText (u := .zero .positive) trivial trivial rfl hread s
    cases s <;> exact h
  | finite s m e hm =>
    have h := read?_signText (u := .finite .positive m e hm) hcanonical hcanonical (spells_positional _).read?_eq
      (readMagnitude_positional hcanonical) s
    cases s <;> exact h

theorem toFloat_natCast {k : ℕ} (h : k ≤ 2 ^ 53) :
    (Decimal.toFloat ⟨k, 0⟩).isFinite = true ∧ value (Decimal.toFloat ⟨k, 0⟩) = k := by
  rcases Nat.eq_zero_or_pos k with rfl | hk
  · have hzero : parts (ofParts (.zero .positive)) = .zero .positive := parts_ofParts trivial
    rw [toFloat_zero, Nat.cast_zero, value_of_parts_zero hzero]
    exact ⟨rfl, rfl⟩
  · have hnearest : IsNearest (Decimal.toFloat ⟨k, 0⟩) k := by
      have hnearest := isNearest_toFloat (d := ⟨k, 0⟩) hk
      rwa [Decimal.value, zpow_zero, mul_one] at hnearest
    have hle : (k : ℚ) ≤ 2 ^ (53 : ℤ) := by exact_mod_cast h
    refine hnearest.exact (nearest_eq_self (n := k) (e := 0) (by simp) ?_ (by norm_num)) ?_
    · rw [Nat.abs_cast]
      exact_mod_cast h
    · rw [Nat.abs_cast]
      exact hle.trans_lt (zpow_lt_zpow_right₀ one_lt_two (by norm_num))

theorem readMagnitude_toDigits (k : ℕ) : readMagnitude (Nat.toDigits 10 k) = some (Decimal.toFloat ⟨k, 0⟩) := by
  have hspells : Spells (Nat.toDigits 10 k) _ := .whole Nat.toDigits_ne_nil fun c ↦ isDigit_of_mem_toDigits
  rw [hspells.readMagnitude_eq, readDecimal_of_forall Nat.toDigits_ne_nil fun c ↦ isDigit_of_mem_toDigits,
    Nat.ofDigitChars_ten_toDigits, Option.map_some]

theorem read?_toString {n : ℤ} (h : |n| ≤ 2 ^ 53) :
    ∃ x, read? (toString n).toList = some x ∧ x.isFinite = true ∧ value x = n := by
  rw [Int.abs_eq_natAbs] at h
  obtain ⟨hf, hv⟩ := toFloat_natCast (k := n.natAbs) (by exact_mod_cast h)
  have hread := readMagnitude_toDigits n.natAbs
  rw [Text.toList_toString_int]
  rcases lt_or_ge n 0 with hn | hn
  · have hcast : (n : ℚ) = -(n.natAbs : ℕ) := by
      rw [← Int.cast_natCast, ← Int.cast_neg, Int.ofNat_natAbs_of_nonpos hn.le, neg_neg]
    refine ⟨-Decimal.toFloat ⟨n.natAbs, 0⟩, ?_, by rw [isFinite_neg, hf], by rw [value_neg, hv, hcast]⟩
    rw [if_pos hn]
    change (readMagnitude (Nat.toDigits 10 n.natAbs)).map Float.neg = _
    rw [hread]
    rfl
  · have hcast : (n : ℚ) = (n.natAbs : ℕ) := by rw [← Int.cast_natCast, Int.natAbs_of_nonneg hn]
    have hspells : Spells (Nat.toDigits 10 n.natAbs) _ := .whole Nat.toDigits_ne_nil fun c ↦ isDigit_of_mem_toDigits
    refine ⟨Decimal.toFloat ⟨n.natAbs, 0⟩, ?_, hf, by rw [hv, hcast]⟩
    rw [if_neg hn.not_gt, List.nil_append, hspells.read?_eq, hread]

def IsNumeral (c : Char) : Prop := c.isDigit = true ∨ c ∈ "-.infNa".toList

theorem IsNumeral.not_isBlank (h : IsNumeral c) : Text.isBlank c = false := by
  rcases h with h | h
  · exact Text.isBlank_of_isDigit h
  · have hall : "-.infNa".toList.all (fun c ↦ !Text.isBlank c) = true := by decide
    simpa using List.all_eq_true.mp hall c h

theorem isNumeral_of_mem_chars (h : c ∈ chars x) : IsNumeral c := by
  have hsign {s : Sign} {cs : List Char} (hcs : ∀ c ∈ cs, IsNumeral c) (h : c ∈ signText s ++ cs) : IsNumeral c := by
    rcases List.mem_append.mp h with h | h
    · cases s with
      | negative => exact .inr (by rw [List.mem_singleton.mp h]; decide)
      | positive => cases h
    · exact hcs c h
  have hword {word : List Char} (hall : word.all ("-.infNa".toList.contains ·) = true) (c : Char) (hc : c ∈ word) :
      IsNumeral c := .inr (List.contains_iff_mem.mp (List.all_eq_true.mp hall c hc))
  unfold chars at h
  split at h
  · exact hword (by decide) c h
  · exact hsign (hword (by decide)) h
  · exact hsign (fun c hc ↦ .inl (by rw [List.mem_singleton.mp hc]; rfl)) h
  · refine hsign (fun c hc ↦ ?_) h
    exact ((spells_positional _).isDigit_or_eq hc).imp_right fun hpoint ↦ by rw [hpoint]; decide

theorem chars_ne_nil (x : Float) : chars x ≠ [] := by
  intro hnil
  have hread := read?_chars x
  rw [hnil] at hread
  cases hread

end FixedNet.Binary64

import FixedNet.Proofs.Quantizer.Reading
import FixedNet.Proofs.Quantizer.Written

namespace FixedNet

open Text

def Alpha.argument : Alpha → Argument
  | fixed a => .number a
  | auto => .text "auto"

theorem Alpha.text_eq (a : Alpha) : a.text = a.argument.written := by cases a <;> rfl

namespace Call

variable {call : Call} {keyword : String} {position : ℕ} {x : Float} {n : ℤ}

/-- Numbers that an integer argument takes. -/
structure IsInt (x : Float) (n : ℤ) : Prop where
  isFinite : x.isFinite = true
  value_eq : Binary64.value x = n
  abs_le : |n| ≤ 2147483647

theorem intArg_of_get? {default : ℤ} (h : call.get? keyword position = some (.number x)) (hx : IsInt x n) :
    call.intArg keyword position default = .ok n := by
  obtain ⟨hf, hv, hn⟩ := hx
  have htrunc := Binary64.trunc_eq_self hf hv
  have hlimit : (2147483647 : Float) = Binary64.ofInt 2147483647 := by decide +kernel
  obtain ⟨hlimitFinite, hlimitValue⟩ := Binary64.ofInt_exact (n := 2147483647) (by norm_num)
  have hle : x.abs ≤ 2147483647 := by
    rw [hlimit, Binary64.le_iff (by rwa [Binary64.isFinite_abs]) hlimitFinite, Binary64.value_abs, hlimitValue, hv]
    exact_mod_cast hn
  have heq : (x == x) = true := (Binary64.beq_iff hf hf).mpr rfl
  unfold intArg
  rw [h]
  dsimp only
  rw [htrunc, hf, heq, decide_eq_true hle, Binary64.toInt_eq hf hv]
  rfl

theorem countArg_of_get? {default k : ℕ} (h : call.get? keyword position = some (.number x)) (hx : IsInt x k) :
    call.countArg keyword position default = .ok k := by
  unfold countArg
  rw [intArg_of_get? h hx]
  change (if 0 ≤ (k : ℤ) then .ok (k : ℤ).toNat else call.badValue keyword) = .ok k
  rw [if_pos (Int.natCast_nonneg k), Int.toNat_natCast]

theorem flagArg_of_get? {default b : Bool} (h : call.get? keyword position = some (.number (if b then 1 else 0))) :
    call.flagArg keyword position default = .ok b := by
  unfold flagArg
  rw [h]
  change Except.ok ((if b then (1 : Float) else 0) != 0) = .ok b
  cases b with
  | true => exact congrArg Except.ok (by decide +kernel)
  | false => exact congrArg Except.ok (by decide +kernel)

theorem alphaArg_of_get? {a : Alpha} (h : call.get? "alpha" position = some a.argument) (ha : a.Usable) :
    call.alphaArg position = .ok a := by
  unfold alphaArg
  rw [h]
  cases a with
  | fixed a =>
    obtain ⟨hf, hpos⟩ := ha a rfl
    change (if (a.isFinite && decide (0 < a)) = true then Except.ok (Alpha.fixed a) else _) = _
    rw [hf, decide_eq_true hpos]
    rfl
  | auto => rfl

theorem thresholdArg_of_get? (h : call.get? "threshold" position = some (.number x)) (hf : x.isFinite = true)
    (hx : 0 ≤ x) : call.thresholdArg position = .ok (some x) := by
  unfold thresholdArg
  rw [h]
  change (if (x.isFinite && decide (0 ≤ x)) = true then Except.ok (some x) else _) = _
  rw [hf, decide_eq_true hx]
  rfl

theorem le_of_thresholdArg (h : call.thresholdArg position = .ok (some x)) : x.isFinite = true ∧ 0 ≤ x := by
  unfold thresholdArg at h
  split at h
  · cases h
  · cases h
  · split at h
    case isTrue hx =>
      cases h
      rwa [Bool.and_eq_true, decide_eq_true_iff] at hx
    case isFalse => cases h
  · cases h

theorem denotes_numeral {cs : List Char} (hne : cs ≠ []) (h : ∀ c ∈ cs, Binary64.IsNumeral c)
    (hread : Binary64.read? cs = some x) : Denotes cs (.number x) where
  trimmed := isTrimmed_of_forall fun c hc ↦ (h c hc).not_isBlank
  ne_nil := hne
  clean c hc := not_mem_of_not_mem (not_mem_of_isNumeral (h c hc))
  positional hmem := not_mem_of_isNumeral (h '=' hmem) (by decide)
  read_eq := Argument.read?_numeral h hread

theorem denotes_toString (hn : |n| ≤ 2147483647) :
    ∃ x, Denotes (toString n).toList (.number x) ∧ IsInt x n := by
  obtain ⟨x, hread, hf, hv⟩ := Binary64.read?_toString (n := n) (hn.trans (by norm_num))
  refine ⟨x, denotes_numeral ?_ (fun c hc ↦ ?_) hread, hf, hv, hn⟩
  · rw [toList_toString_int]
    exact List.append_ne_nil_of_right_ne_nil _ Nat.toDigits_ne_nil
  · rw [toList_toString_int] at hc
    rcases List.mem_append.mp hc with hc | hc
    · split at hc
      · exact .inr (by rw [List.mem_singleton.mp hc]; decide)
      · cases hc
    · exact .inl (isDigit_of_mem_toDigits hc)

theorem denotes_flag (b : Bool) : Denotes (if b then "1" else "0").toList (.number (if b then 1 else 0)) := by
  have hread : Binary64.read? ['1'] = some 1 ∧ Binary64.read? ['0'] = some 0 := by decide +kernel
  cases b with
  | true => exact denotes_numeral (List.cons_ne_nil _ _) (fun c hc ↦ .inl (by cases hc <;> trivial)) hread.1
  | false => exact denotes_numeral (List.cons_ne_nil _ _) (fun c hc ↦ .inl (by cases hc <;> trivial)) hread.2

theorem isKeyword_of_isAlpha {key : String} {a : Argument} (hkey : key.toList.all Char.isAlpha = true)
    (ha : ∀ c ∈ a.written.toList, c ∉ "(),".toList) : IsKeyword (key, a) := by
  have hclean {others : List Char} (h : others.all (!·.isAlpha) = true) (c : Char) (hc : c ∈ key.toList) : c ∉ others :=
    not_mem_of_all h (List.all_eq_true.mp hkey c hc)
  exact ⟨isTrimmed_of_forall fun c hc ↦ isBlank_eq_false_iff.mpr (hclean (by decide) c hc), hclean (by decide), ha⟩

theorem not_mem_of_mem_number {c : Char} (hc : c ∈ (Argument.number x).written.toList) : c ∉ "(),".toList := by
  rw [Argument.toList_written_number] at hc
  exact not_mem_of_not_mem (not_mem_of_isNumeral (Binary64.isNumeral_of_mem_chars hc))

theorem isKeyword_alpha (a : Alpha) : IsKeyword ("alpha", a.argument) := by
  refine isKeyword_of_isAlpha (by decide) fun c hc ↦ ?_
  cases a with
  | fixed a => exact not_mem_of_mem_number hc
  | auto =>
    have hall : (Argument.text "auto").written.toList.all (!"(),".toList.contains ·) = true := by decide
    simpa using List.all_eq_true.mp hall c hc

theorem isKeyword_threshold (t : Float) : IsKeyword ("threshold", .number t) :=
  isKeyword_of_isAlpha (by decide) fun _ ↦ not_mem_of_mem_number

end Call

namespace Quantizer

/-- Parameters that a call can name. -/
def Nameable : Quantizer → Prop
  | uniform q => |q.integer| ≤ 2147483647 ∧ q.alpha.Usable
  | ternary q => q.alpha.Usable ∧ ∀ t, q.threshold = some t → t.isFinite = true ∧ 0 ≤ t
  | binary q => if q.xnor then q.alpha.Usable else q.alpha = .unit

/-- What is left of a quantizer once it is shown. -/
def shown : Quantizer → Quantizer
  | uniform q => if q.keepNegative then uniform q else uniform { q with symmetric := false, alpha := .unit }
  | q => q

open Call

theorem read_eq_ofCall {text : String} {call : Call} (h : Call.read? text = some call) : read text = ofCall call := by
  rw [read, h]

theorem make_eq (q : Uniform) :
    Uniform.make q.bits q.integer = .ok { q with symmetric := false, keepNegative := true, alpha := .unit } :=
  dif_pos q.bits_bounds

theorem exists_widths {q : Uniform} (h : |q.integer| ≤ 2147483647) :
    ∃ bits integer, Denotes (toString q.bits).toList (.number bits) ∧ IsInt bits q.bits ∧
      Denotes (toString q.integer).toList (.number integer) ∧ IsInt integer q.integer := by
  have hbits : |(q.bits : ℤ)| ≤ 2147483647 := by
    rw [Nat.abs_cast]
    exact (Int.ofNat_le.mpr q.bits_bounds.2).trans (by norm_num)
  obtain ⟨bits, hbits⟩ := denotes_toString hbits
  obtain ⟨integer, hinteger⟩ := denotes_toString h
  exact ⟨bits, integer, hbits.1, hbits.2, hinteger⟩

theorem read_text_bits {q : Uniform} (h : (uniform q).Nameable) (hq : q.keepNegative = true) :
    read (uniform q).text = .ok (uniform q) := by
  obtain ⟨hinteger, halpha⟩ := h
  obtain ⟨bits, integer, hbitsDenotes, hbits, hintegerDenotes, hinteger⟩ := exists_widths hinteger
  have hread : Call.read? (uniform q).text = some {
      name := "quantized_bits"
      args := [.number bits, .number integer, .number (if q.symmetric then 1 else 0)]
      kwargs := [("alpha", q.alpha.argument)] } := by
    refine read?_parts ?_ rfl (.cons hbitsDenotes (.cons hintegerDenotes (.cons (denotes_flag q.symmetric) .nil)))
      (List.forall_mem_singleton.mpr (isKeyword_alpha q.alpha))
    simp [text, hq, keyword, Alpha.text_eq]
  rw [read_eq_ofCall hread]
  simp only [ofCall, bind_eq_ok_iff, pure_eq_ok_iff]
  refine ⟨(), rfl, (), rfl, q.bits, countArg_of_get? rfl hbits, q.integer, intArg_of_get? rfl hinteger, _, make_eq q,
    q.symmetric, flagArg_of_get? rfl, true, rfl, q.alpha, alphaArg_of_get? rfl halpha, ?_⟩
  rw [← hq]

theorem read_text_relu {q : Uniform} (h : |q.integer| ≤ 2147483647) (hq : q.keepNegative = false) :
    read (uniform q).text = .ok (uniform { q with symmetric := false, alpha := .unit }) := by
  obtain ⟨bits, integer, hbitsDenotes, hbits, hintegerDenotes, hinteger⟩ := exists_widths h
  have hread : Call.read? (uniform q).text = some
      { name := "quantized_relu", args := [.number bits, .number integer] } := by
    refine read?_parts ?_ rfl (.cons hbitsDenotes (.cons hintegerDenotes .nil)) nofun
    simp [text, hq]
  rw [read_eq_ofCall hread]
  simp only [ofCall, bind_eq_ok_iff, pure_eq_ok_iff]
  refine ⟨(), rfl, (), rfl, (), rfl, (), rfl, q.bits, countArg_of_get? rfl hbits, q.integer,
    intArg_of_get? rfl hinteger, _, map_eq_ok_iff.mpr ⟨_, make_eq q, rfl⟩, ?_⟩
  rw [← hq]

theorem read_text_ternary {q : Ternary} (h : (ternary q).Nameable) : read (ternary q).text = .ok (ternary q) := by
  obtain ⟨alpha, threshold⟩ := q
  obtain ⟨halpha, hthreshold⟩ := h
  cases threshold with
  | none =>
    have hread : Call.read? (ternary ⟨alpha, none⟩).text = some
        { name := "ternary", kwargs := [("alpha", alpha.argument)] } := by
      refine read?_parts ?_ rfl .nil (List.forall_mem_singleton.mpr (isKeyword_alpha alpha))
      simp [text, keyword, Alpha.text_eq]
    rw [read_eq_ofCall hread]
    simp only [ofCall, bind_eq_ok_iff, pure_eq_ok_iff]
    exact ⟨(), rfl, (), rfl, none, rfl, alpha, alphaArg_of_get? rfl halpha, rfl⟩
  | some t =>
    obtain ⟨hf, ht⟩ := hthreshold t rfl
    have hread : Call.read? (ternary ⟨alpha, some t⟩).text = some
        { name := "ternary", kwargs := [("alpha", alpha.argument), ("threshold", .number t)] } := by
      refine read?_parts ?_ rfl .nil
        (List.forall_mem_cons.mpr ⟨isKeyword_alpha alpha, List.forall_mem_singleton.mpr (isKeyword_threshold t)⟩)
      simp [text, keyword, Alpha.text_eq, Argument.written]
    rw [read_eq_ofCall hread]
    simp only [ofCall, bind_eq_ok_iff, pure_eq_ok_iff]
    exact ⟨(), rfl, (), rfl, some t, thresholdArg_of_get? rfl hf ht, alpha, alphaArg_of_get? rfl halpha, rfl⟩

theorem read_text_binary {q : Binary} (h : (binary q).Nameable) : read (binary q).text = .ok (binary q) := by
  obtain ⟨xnor, alpha⟩ := q
  cases xnor with
  | true =>
    have hread : Call.read? (binary ⟨true, alpha⟩).text = some
        { name := "binary", kwargs := [("alpha", alpha.argument)] } := by
      refine read?_parts ?_ rfl .nil (List.forall_mem_singleton.mpr (isKeyword_alpha alpha))
      simp [text, keyword, Alpha.text_eq]
    rw [read_eq_ofCall hread]
    simp only [ofCall, bind_eq_ok_iff, pure_eq_ok_iff]
    exact ⟨(), rfl, (), rfl, (), rfl, alpha, alphaArg_of_get? rfl h, rfl⟩
  | false =>
    cases h
    rfl

/-- A quantizer that a call can name is read from its text as far as it is shown. -/
theorem read_text {q : Quantizer} (h : q.Nameable) : read q.text = .ok q.shown := by
  cases q with
  | uniform q =>
    change _ = Except.ok (if q.keepNegative then uniform q else _)
    split
    case isTrue hq => exact read_text_bits h hq
    case isFalse hq => exact read_text_relu h.1 (eq_false_of_ne_true hq)
  | ternary q => exact read_text_ternary h
  | binary q => exact read_text_binary h

theorem Denoted.nameable {call : Call} {q : Quantizer} (h : Denoted call q) : q.Nameable := by
  have hread := h.isRead
  have halpha := h.usable
  cases h with
  | bits => exact ⟨hread, halpha⟩
  | relu => exact ⟨hread, halpha⟩
  | ternary hthreshold =>
    refine ⟨halpha, fun t ht ↦ ?_⟩
    cases ht
    exact le_of_thresholdArg hthreshold
  | binary => exact halpha
  | tanh => rfl

theorem shown_eq_self_iff (q : Quantizer) : q.shown = q ↔
    ∀ u, q = uniform u → u.keepNegative = false → u.symmetric = false ∧ u.alpha = .unit := by
  cases q with
  | uniform u =>
    obtain ⟨bits, integer, symmetric, keepNegative, alpha, hbits⟩ := u
    cases keepNegative with
    | true => exact iff_of_true rfl fun u hu hnegative ↦ by cases hu; cases hnegative
    | false =>
      constructor
      · intro h u hu _
        cases hu
        injection h with h
        injection h with _ _ hsymmetric _ halpha
        exact ⟨hsymmetric.symm, halpha.symm⟩
      · intro h
        obtain ⟨hsymmetric, halpha⟩ := h _ rfl rfl
        cases hsymmetric
        cases halpha
        rfl
  | ternary q => exact iff_of_true rfl nofun
  | binary q => exact iff_of_true rfl nofun

theorem project_shown (q : Quantizer) : q.shown.project = q.project ∧ q.shown.format = q.format := by
  cases q with
  | uniform u =>
    obtain ⟨bits, integer, symmetric, keepNegative, alpha, hbits⟩ := u
    cases keepNegative <;> exact ⟨rfl, rfl⟩
  | ternary q => exact ⟨rfl, rfl⟩
  | binary q => exact ⟨rfl, rfl⟩

/-- The text of a quantizer that was read is read as what is shown of it, which is the whole quantizer unless it has no
negative half and was given a scale or a symmetric range. Both have the same codes at unit scale. -/
theorem read_text_of_read {s : String} {q : Quantizer} (h : read s = .ok q) :
    read q.text = .ok q.shown ∧
      (q.shown = q ↔ ∀ u, q = uniform u → u.keepNegative = false → u.symmetric = false ∧ u.alpha = .unit) ∧
      q.shown.project = q.project ∧ q.shown.format = q.format := by
  obtain ⟨call, hcall⟩ := exists_denoted_of_read h
  exact ⟨read_text hcall.nameable, shown_eq_self_iff q, project_shown q⟩

theorem read_text_of_read_nibble :
    ∃ q, read "quantized_bits( 4, 1, symmetric = True, alpha = \"auto\" )" = .ok q ∧
      q.text = "quantized_bits(4,1,1,alpha='auto')" ∧ read q.text = .ok q := by
  have hread : read "quantized_bits( 4, 1, symmetric = True, alpha = \"auto\" )" =
      .ok (uniform ⟨4, 1, true, true, .auto, by decide⟩) := rfl
  obtain ⟨htext, hshown, -⟩ := read_text_of_read hread
  refine ⟨_, hread, by decide +kernel, htext.trans (congrArg _ (hshown.mpr ?_))⟩
  intro u hu hnegative
  cases hu
  cases hnegative

/-- The scale of a grid without its negative half is not shown. -/
theorem exists_read_text_ne : ∃ q, read "quantized_bits(4,0,0,0,alpha=2)" = .ok q ∧ q.text = "quantized_relu(4,0)" ∧
    read q.text ≠ .ok q := by
  have hread : read "quantized_relu(4,0)" = .ok (uniform ⟨4, 0, false, false, .unit, by decide⟩) := rfl
  have hne : uniform ⟨4, 0, false, false, .unit, by decide⟩ ≠ uniform ⟨4, 0, false, false, .fixed 2, by decide⟩ := by
    decide +kernel
  exact ⟨_, rfl, rfl, fun h ↦ hne (Except.ok.inj (hread.symm.trans h))⟩

end Quantizer

end FixedNet

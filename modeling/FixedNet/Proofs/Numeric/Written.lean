import FixedNet.Numeric.FormatText
import FixedNet.Proofs.Numeric.Narrow
import FixedNet.Proofs.Outcome
import FixedNet.Proofs.Text.Digits
import FixedNet.Proofs.Text.Pieces

namespace FixedNet

open Text

theorem Rounding.read?_name (r : Rounding) : read? r.name = some r := by cases r <;> rfl

theorem Overflow.read?_name (o : Overflow) : read? o.name = some o := by cases o <;> rfl

namespace Format

def spelled (total : ℕ) (integer : ℤ) (signed : Bool) (rounding : Rounding) (overflow : Overflow) : String :=
  let modes := if rounding ≠ .down ∨ overflow ≠ .wrap then "," ++ rounding.name ++ "," ++ overflow.name else ""
  (if signed then "fixed<" else "ufixed<") ++ toString total ++ "," ++ toString integer ++ modes ++ ">"

def nameOf (signed : Bool) : String := if signed then "fixed" else "ufixed"

def argumentsOf (total : ℕ) (integer : ℤ) (rounding : Rounding) (overflow : Overflow) : List (List Char) :=
  Nat.toDigits 10 total :: (toString integer).toList ::
    if rounding ≠ .down ∨ overflow ≠ .wrap then [rounding.name.toList, overflow.name.toList] else []

variable {total : ℕ} {integer : ℤ} {signed : Bool} {rounding : Rounding} {overflow : Overflow} {f f' : Format}

theorem text_eq_spelled (f : Format) : f.text = spelled f.total f.integer f.signed f.rounding f.overflow := rfl

theorem toList_spelled (total : ℕ) (integer : ℤ) (signed : Bool) (rounding : Rounding) (overflow : Overflow) :
    (spelled total integer signed rounding overflow).toList =
      (nameOf signed).toList ++ '<' :: ([','].intercalate (argumentsOf total integer rounding overflow) ++ ['>']) := by
  have hname : (if signed then "fixed<" else "ufixed<").toList = (nameOf signed).toList ++ ['<'] := by
    cases signed <;> rfl
  unfold spelled argumentsOf
  simp only [String.toList_append, hname, toList_toString]
  split <;> simp

/-- Texts that stay in one piece between commas. -/
def IsPiece (cs : List Char) : Prop := ∀ c ∈ cs, isBlank c = false ∧ c ≠ ','

theorem isPiece_of_all {cs : List Char} (h : cs.all (fun c ↦ !isBlank c && c != ',') = true) : IsPiece cs := by
  simpa [IsPiece] using h

theorem isPiece_digits (n : ℕ) : IsPiece (Nat.toDigits 10 n) := by
  intro c hc
  have hdigit := isDigit_of_mem_toDigits hc
  exact ⟨isBlank_of_isDigit hdigit, ne_of_isDigit hdigit rfl⟩

theorem isPiece_of_mem_argumentsOf {arg : List Char} (h : arg ∈ argumentsOf total integer rounding overflow) :
    IsPiece arg := by
  unfold argumentsOf at h
  rcases List.mem_cons.mp h with rfl | h
  · exact isPiece_digits total
  rcases List.mem_cons.mp h with rfl | h
  · rw [toList_toString_int]
    intro c hc
    rcases List.mem_append.mp hc with hsign | hdigits
    · split at hsign
      · rw [List.mem_singleton.mp hsign]
        decide
      · cases hsign
    · exact isPiece_digits _ c hdigits
  · split at h
    · rcases List.mem_pair.mp h with rfl | rfl
      · refine isPiece_of_all ?_
        cases rounding <;> decide
      · refine isPiece_of_all ?_
        cases overflow <;> decide
    · cases h

theorem isTrimmed_spelled (total : ℕ) (integer : ℤ) (signed : Bool) (rounding : Rounding) (overflow : Overflow) :
    IsTrimmed (spelled total integer signed rounding overflow).toList := by
  rw [toList_spelled]
  constructor
  · cases signed <;> exact fun c hc ↦ by cases hc; rfl
  · rw [← List.cons_append, ← List.append_assoc, List.getLast?_append]
    exact fun c hc ↦ by cases hc; rfl

theorem splitText_spelled (total : ℕ) (integer : ℤ) (signed : Bool) (rounding : Rounding) (overflow : Overflow) :
    splitText (spelled total integer signed rounding overflow) =
      some (nameOf signed, argumentsOf total integer rounding overflow) := by
  have hmem : '<' ∉ (nameOf signed).toList := by cases signed <;> decide
  have hsplit : splitAll ',' ([','].intercalate (argumentsOf total integer rounding overflow)) =
      argumentsOf total integer rounding overflow :=
    splitAll_intercalate (List.cons_ne_nil _ _) fun arg harg hc ↦ (isPiece_of_mem_argumentsOf harg _ hc).2 rfl
  have htrim : (argumentsOf total integer rounding overflow).map trim = argumentsOf total integer rounding overflow :=
    map_trim_eq_self fun arg harg ↦ isTrimmed_of_forall fun c hc ↦ (isPiece_of_mem_argumentsOf harg c hc).1
  have htrimmed := isTrimmed_spelled total integer signed rounding overflow
  rw [splitText, htrimmed.trim_eq, toList_spelled, splitFirst_append hmem, Option.bind_eq_bind, Option.bind_some]
  dsimp only
  rw [stripLast_append, Option.bind_eq_bind, Option.bind_some, hsplit, htrim]
  cases signed <;> rfl

theorem readWidth_toDigits (n : ℕ) : readWidth (Nat.toDigits 10 n) = if n < 2 ^ 32 then some n else none := by
  rw [readWidth, readSigned_eq (readInt_toDigits n)]
  by_cases hn : n < 2 ^ 32
  · rw [if_pos hn, if_pos (by omega), Option.bind_some, if_pos (by omega), Int.toNat_natCast]
  · rw [if_neg hn]
    split
    · rw [Option.bind_some, if_neg (by omega)]
    · rfl

theorem readRounding_name (r : Rounding) : readRounding r.name.toList = .ok r := by
  rw [readRounding, String.ofList_toList, Rounding.read?_name]

theorem readOverflow_name (o : Overflow) : readOverflow o.name.toList = .ok o := by
  rw [readOverflow, String.ofList_toList, Overflow.read?_name]

def ofWidths (s : String) (signed : Bool) (total integer : List Char) : Except NumericError Format :=
  match readWidth total, readSigned 32 integer with
  | some total, some integer => make total integer signed
  | _, _ => .error (.malformed s)

theorem read_of_widths {s : String} {t i : List Char} (h : splitText s = some (nameOf signed, [t, i])) :
    read s = ofWidths s signed t i := by
  unfold read
  rw [h]
  cases signed <;> rfl

theorem read_of_modes {s : String} {t i r o : List Char} (h : splitText s = some (nameOf signed, [t, i, r, o])) :
    read s = do
      let f ← ofWidths s signed t i
      let r ← readRounding r
      let o ← readOverflow o
      return (f.withRounding r).withOverflow o := by
  unfold read
  rw [h]
  cases signed <;> rfl

theorem ofWidths_digits (s : String) (signed : Bool) (total : ℕ) (integer : ℤ) :
    ofWidths s signed (Nat.toDigits 10 total) (toString integer).toList =
      if total < 2 ^ 32 ∧ -(2 ^ 31) ≤ integer ∧ integer < 2 ^ 31 then make total integer signed
      else .error (.malformed s) := by
  rw [ofWidths, readWidth_toDigits, readSigned_eq (readInt_toString integer)]
  by_cases htotal : total < 2 ^ 32
  · by_cases hinteger : -(2 ^ 31) ≤ integer ∧ integer < 2 ^ 31
    · rw [if_pos htotal, if_pos hinteger, if_pos ⟨htotal, hinteger⟩]
    · rw [if_pos htotal, if_neg hinteger, if_neg fun h ↦ hinteger h.2]
  · rw [if_neg htotal]
    exact (if_neg fun h ↦ htotal h.1).symm

theorem map_make (total : ℕ) (integer : ℤ) (signed : Bool) :
    (make total integer signed).map (fun f ↦ (f.withRounding .down).withOverflow .wrap) =
      make total integer signed := by
  unfold make
  split <;> rfl

theorem read_spelled (total : ℕ) (integer : ℤ) (signed : Bool) (rounding : Rounding) (overflow : Overflow) :
    read (spelled total integer signed rounding overflow) =
      (if total < 2 ^ 32 ∧ -(2 ^ 31) ≤ integer ∧ integer < 2 ^ 31 then make total integer signed
        else .error (.malformed (spelled total integer signed rounding overflow))).map
      fun f ↦ (f.withRounding rounding).withOverflow overflow := by
  have hsplit := splitText_spelled total integer signed rounding overflow
  generalize spelled total integer signed rounding overflow = s at hsplit ⊢
  unfold argumentsOf at hsplit
  by_cases hmodes : rounding ≠ .down ∨ overflow ≠ .wrap
  · rw [if_pos hmodes] at hsplit
    rw [read_of_modes hsplit, ofWidths_digits, readRounding_name, readOverflow_name]
    split
    · cases make total integer signed <;> rfl
    · rfl
  · rw [if_neg hmodes] at hsplit
    obtain ⟨rfl, rfl⟩ : rounding = .down ∧ overflow = .wrap := by simpa using hmodes
    rw [read_of_widths hsplit, ofWidths_digits]
    split
    · exact (map_make total integer signed).symm
    · rfl

theorem make_eq_ok_iff :
    make total integer signed = .ok f ↔
      f.total = total ∧ f.integer = integer ∧ f.signed = signed ∧ f.rounding = .down ∧ f.overflow = .wrap := by
  constructor
  · exact fields_of_make
  · obtain ⟨_, _, _, _, _, htotal, hinteger⟩ := f
    rintro ⟨rfl, rfl, rfl, rfl, rfl⟩
    exact dif_pos ⟨htotal, hinteger⟩

theorem read_spelled_eq_ok_iff :
    read (spelled total integer signed rounding overflow) = .ok f ↔
      f.total = total ∧ f.integer = integer ∧ f.signed = signed ∧ f.rounding = rounding ∧ f.overflow = overflow := by
  rw [read_spelled, map_eq_ok_iff]
  constructor
  · rintro ⟨f, hf, rfl⟩
    split at hf
    · obtain ⟨htotal, hinteger, hsigned, _, _⟩ := make_eq_ok_iff.mp hf
      exact ⟨htotal, hinteger, hsigned, rfl, rfl⟩
    · cases hf
  · rintro ⟨rfl, rfl, rfl, rfl, rfl⟩
    have htotal := f.total_bounds
    have hinteger := f.integer_bounds
    refine ⟨(f.withRounding .down).withOverflow .wrap, ?_, rfl⟩
    rw [if_pos (by omega)]
    exact make_eq_ok_iff.mpr ⟨rfl, rfl, rfl, rfl, rfl⟩

theorem read_text (f : Format) : read f.text = .ok f := by
  rw [text_eq_spelled, read_spelled_eq_ok_iff]
  exact ⟨rfl, rfl, rfl, rfl, rfl⟩

theorem exists_read_spelled_iff :
    (∃ f, read (spelled total integer signed rounding overflow) = .ok f) ↔
      (1 ≤ total ∧ total ≤ 64) ∧ -64 ≤ integer ∧ integer ≤ 128 := by
  simp only [read_spelled_eq_ok_iff]
  constructor
  · rintro ⟨f, rfl, rfl, -, -, -⟩
    exact ⟨f.total_bounds, f.integer_bounds⟩
  · rintro ⟨htotal, hinteger⟩
    exact ⟨⟨total, integer, signed, rounding, overflow, htotal, hinteger⟩, rfl, rfl, rfl, rfl, rfl⟩

/-- The text of a format is the normal form of all the texts that read as it. -/
theorem text_isNormalForm :
    (∀ f : Format, read f.text = .ok f) ∧
    (∀ s f, read s = .ok f →
      ((1 ≤ f.total ∧ f.total ≤ 64) ∧ -64 ≤ f.integer ∧ f.integer ≤ 128) ∧ read f.text = .ok f) ∧
    (∀ s s' f f', read s = .ok f → read s' = .ok f' → (f.text = f'.text ↔ read s = read s')) ∧
    ∀ total integer signed rounding overflow,
      (∃ f, read (spelled total integer signed rounding overflow) = .ok f) ↔
        (1 ≤ total ∧ total ≤ 64) ∧ -64 ≤ integer ∧ integer ≤ 128 := by
  refine ⟨read_text, fun s f _ ↦ ⟨⟨f.total_bounds, f.integer_bounds⟩, read_text f⟩, ?_,
    fun _ _ _ _ _ ↦ exists_read_spelled_iff⟩
  intro s s' f f' hf hf'
  rw [hf, hf', Except.ok.injEq]
  constructor
  · intro htext
    have hread := read_text f
    rw [htext, read_text f', Except.ok.injEq] at hread
    exact hread.symm
  · rintro rfl
    rfl

theorem text_isNormalForm_aliases :
    ∃ f f', read " ap_UFixed< +8 ,-2, ap_rnd_conv, saturate >" = .ok f ∧ read "ufixed<8,-2,RND_CONV,SAT>" = .ok f' ∧
      f.text = f'.text ∧ f.total ≤ 64 ∧ read f.text = .ok f := by
  have hread : read " ap_UFixed< +8 ,-2, ap_rnd_conv, saturate >" =
      .ok { total := 8, integer := -2, signed := false, rounding := .nearestEven, overflow := .saturate } := rfl
  have hread' : read "ufixed<8,-2,RND_CONV,SAT>" =
      .ok { total := 8, integer := -2, signed := false, rounding := .nearestEven, overflow := .saturate } := rfl
  obtain ⟨-, hnormal, hinjective, -⟩ := text_isNormalForm
  refine ⟨_, _, hread, hread', ?_, (hnormal _ _ hread).1.1.2, (hnormal _ _ hread).2⟩
  exact (hinjective _ _ _ _ hread hread').mpr (hread.trans hread'.symm)

end Format

end FixedNet

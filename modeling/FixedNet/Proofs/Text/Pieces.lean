import Mathlib
import FixedNet.Text.Blank
import FixedNet.Text.Split

namespace FixedNet.Text

variable {sep c : Char} {cs front rest : List Char}

theorem isBlank_eq_false_iff : isBlank c = false ↔ c ∉ blanks := by
  rw [isBlank, List.contains_eq_mem, decide_eq_false_iff_not]

/-- Characters of a class are not among finitely many others. -/
theorem not_mem_of_all {p : Char → Bool} (h : cs.all (!p ·) = true) (hc : p c = true) : c ∉ cs := by
  intro hmem
  have hother := List.all_eq_true.mp h c hmem
  rw [hc] at hother
  cases hother

theorem dropBlanks_eq_self (h : ∀ c ∈ cs.head?, isBlank c = false) : dropBlanks cs = cs := by
  cases cs with
  | nil => rfl
  | cons c cs => exact List.dropWhile_cons_of_neg (by simp [h c rfl])

theorem head?_dropBlanks (cs : List Char) : ∀ c ∈ (dropBlanks cs).head?, isBlank c = false := by
  intro c hc
  have h := List.head?_dropWhile_not isBlank cs
  rw [dropBlanks] at hc
  rw [Option.mem_def] at hc
  rw [hc] at h
  simpa using h

/-- Texts without a blank at either end. -/
structure IsTrimmed (cs : List Char) : Prop where
  head : ∀ c ∈ cs.head?, isBlank c = false
  last : ∀ c ∈ cs.getLast?, isBlank c = false

theorem IsTrimmed.trim_eq (h : IsTrimmed cs) : trim cs = cs := by
  rw [trim, dropBlanks_eq_self h.head, dropBlanks_eq_self, List.reverse_reverse]
  rw [List.head?_reverse]
  exact h.last

theorem isTrimmed_trim (cs : List Char) : IsTrimmed (trim cs) := by
  constructor
  · obtain ⟨tail, htail⟩ : (dropBlanks (dropBlanks cs).reverse).reverse <+: dropBlanks cs := by
      rw [← List.reverse_suffix, List.reverse_reverse]
      exact List.dropWhile_suffix isBlank
    intro c hc
    refine head?_dropBlanks cs c ?_
    rw [← htail]
    exact List.mem_head?_append_of_mem_head? hc
  · rw [trim, List.getLast?_reverse]
    exact head?_dropBlanks _

theorem trim_trim (cs : List Char) : trim (trim cs) = trim cs := (isTrimmed_trim cs).trim_eq

theorem trim_subset (cs : List Char) : trim cs ⊆ cs := by
  intro c hc
  rw [trim, List.mem_reverse] at hc
  have h := (List.dropWhile_sublist isBlank).mem hc
  exact (List.dropWhile_sublist isBlank).mem (List.mem_reverse.mp h)

theorem map_trim_eq_self {pieces : List (List Char)} (h : ∀ piece ∈ pieces, IsTrimmed piece) :
    pieces.map trim = pieces := by
  refine (List.map_congr_left fun piece hpiece ↦ ?_).trans (List.map_id pieces)
  exact (h piece hpiece).trim_eq

/-- Texts without any blank. -/
theorem isTrimmed_of_forall (h : ∀ c ∈ cs, isBlank c = false) : IsTrimmed cs :=
  ⟨fun c hc ↦ h c (List.mem_of_mem_head? hc), fun c hc ↦ h c (List.mem_of_mem_getLast? hc)⟩

theorem splitFirst_append (h : sep ∉ front) : splitFirst sep (front ++ sep :: rest) = some (front, rest) := by
  induction front with
  | nil => exact if_pos rfl
  | cons c front ih =>
    have hc := List.ne_of_not_mem_cons h
    rw [List.cons_append, splitFirst, if_neg hc.symm, ih (List.not_mem_of_not_mem_cons h)]
    rfl

theorem splitFirst_eq_none_iff : splitFirst sep cs = none ↔ sep ∉ cs := by
  induction cs with
  | nil => simp [splitFirst]
  | cons c cs ih =>
    rw [splitFirst, List.mem_cons, not_or]
    by_cases hc : c = sep
    · simp [hc]
    · rw [if_neg hc, Option.map_eq_none_iff, ih]
      exact (and_iff_right (Ne.symm hc)).symm

theorem splitFirst_eq_some_iff : splitFirst sep cs = some (front, rest) ↔ cs = front ++ sep :: rest ∧ sep ∉ front := by
  constructor
  · intro h
    induction cs generalizing front with
    | nil => cases h
    | cons c cs ih =>
      rw [splitFirst] at h
      split at h
      case isTrue hc =>
        cases h
        exact ⟨by rw [hc]; rfl, List.not_mem_nil⟩
      case isFalse hc =>
        obtain ⟨⟨front', rest'⟩, hsplit, hpair⟩ := Option.map_eq_some_iff.mp h
        cases hpair
        obtain ⟨rfl, hmem⟩ := ih hsplit
        exact ⟨rfl, List.not_mem_cons_of_ne_of_not_mem (Ne.symm hc) hmem⟩
  · rintro ⟨rfl, hmem⟩
    exact splitFirst_append hmem

theorem splitAll_of_not_mem (h : sep ∉ cs) : splitAll sep cs = [cs] := by
  induction cs with
  | nil => rfl
  | cons c cs ih =>
    have hc := List.ne_of_not_mem_cons h
    rw [splitAll, if_neg hc.symm, ih (List.not_mem_of_not_mem_cons h)]

theorem splitAll_append (h : sep ∉ front) : splitAll sep (front ++ sep :: rest) = front :: splitAll sep rest := by
  induction front with
  | nil => exact if_pos rfl
  | cons c front ih =>
    have hc := List.ne_of_not_mem_cons h
    rw [List.cons_append, splitAll, if_neg hc.symm, ih (List.not_mem_of_not_mem_cons h)]

/-- Pieces without the separator are what their join is cut into. -/
theorem splitAll_intercalate {pieces : List (List Char)} (hne : pieces ≠ []) (h : ∀ piece ∈ pieces, sep ∉ piece) :
    splitAll sep ([sep].intercalate pieces) = pieces := by
  induction pieces with
  | nil => exact absurd rfl hne
  | cons piece pieces ih =>
    have hpiece := h piece List.mem_cons_self
    cases pieces with
    | nil => rw [List.intercalate_singleton, splitAll_of_not_mem hpiece]
    | cons next pieces =>
      rw [List.intercalate_cons_cons, List.append_assoc, List.singleton_append, splitAll_append hpiece,
        ih (List.cons_ne_nil _ _) fun piece hmem ↦ h piece (List.mem_cons_of_mem _ hmem)]

theorem mem_splitAll_cons {c : Char} {piece : List Char} (h : piece ∈ splitAll sep (c :: cs)) :
    piece = [] ∨ piece ∈ splitAll sep cs ∨ c ≠ sep ∧ ∃ rest ∈ splitAll sep cs, piece = c :: rest := by
  rw [splitAll] at h
  split at h
  case isTrue =>
    rcases List.mem_cons.mp h with rfl | h
    · exact .inl rfl
    · exact .inr (.inl h)
  case isFalse hc =>
    split at h
    case h_1 hnil => exact absurd hnil (splitAll_ne_nil sep cs)
    case h_2 first pieces hsplit =>
      rw [hsplit]
      rcases List.mem_cons.mp h with rfl | h
      · exact .inr (.inr ⟨hc, first, List.mem_cons_self, rfl⟩)
      · exact .inr (.inl (List.mem_cons_of_mem _ h))

theorem not_mem_of_mem_splitAll {piece : List Char} (h : piece ∈ splitAll sep cs) : sep ∉ piece := by
  induction cs generalizing piece with
  | nil =>
    rw [List.mem_singleton.mp h]
    exact List.not_mem_nil
  | cons c cs ih =>
    rcases mem_splitAll_cons h with rfl | h | ⟨hc, rest, hrest, rfl⟩
    · exact List.not_mem_nil
    · exact ih h
    · exact List.not_mem_cons_of_ne_of_not_mem (Ne.symm hc) (ih hrest)

theorem subset_of_mem_splitAll {piece : List Char} (h : piece ∈ splitAll sep cs) : piece ⊆ cs := by
  induction cs generalizing piece with
  | nil =>
    rw [List.mem_singleton.mp h]
    exact List.Subset.refl _
  | cons c cs ih =>
    rcases mem_splitAll_cons h with rfl | h | ⟨-, rest, hrest, rfl⟩
    · exact List.nil_subset _
    · exact List.subset_cons_of_subset c (ih h)
    · exact List.cons_subset_cons c (ih hrest)

theorem stripLast_eq_some_iff {last : Char} : stripLast last cs = some rest ↔ cs = rest ++ [last] := by
  rw [stripLast]
  constructor
  · intro h
    split at h
    case isTrue hlast =>
      cases h
      exact (List.dropLast_append_getLast? last hlast).symm
    case isFalse => cases h
  · rintro rfl
    exact stripLast_append last rest

theorem stripFront_eq_some_iff : stripFront front cs = some rest ↔ cs = front ++ rest := by
  constructor
  · intro h
    induction front generalizing cs with
    | nil =>
      cases h
      rfl
    | cons f front ih =>
      cases cs with
      | nil => cases h
      | cons c cs =>
        rw [stripFront] at h
        split at h
        case isTrue hc => rw [ih h, hc, List.cons_append]
        case isFalse => cases h
  · rintro rfl
    exact stripFront_append front rest

end FixedNet.Text

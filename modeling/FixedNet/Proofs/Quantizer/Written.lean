import FixedNet.Proofs.Binary64.Written
import FixedNet.Proofs.Outcome
import FixedNet.Proofs.Text.Pieces
import FixedNet.Quantizer.Call

namespace FixedNet

open Text

namespace Argument

variable {c : Char} {cs : List Char} {a : Argument}

theorem toList_written_number (x : Float) : (number x).written.toList = Binary64.chars x := String.toList_ofList

theorem toList_written_text (t : String) : (text t).written.toList = '\'' :: (t.toList ++ ['\'']) := by
  change ("'" ++ t ++ "'").toList = _
  rw [String.toList_append, String.toList_append, List.append_assoc]
  rfl

theorem unquote_quoted (quote : Char) (cs : List Char) : unquote quote (quote :: (cs ++ [quote])) = some cs := by
  have hfront : stripFront [quote] (quote :: (cs ++ [quote])) = some (cs ++ [quote]) := stripFront_append [quote] _
  rw [unquote, hfront, Option.bind_some, stripLast_append]

theorem eq_of_unquote {quote : Char} {t : List Char} (h : unquote quote cs = some t) :
    cs = quote :: (t ++ [quote]) := by
  obtain ⟨rest, hfront, hlast⟩ := Option.bind_eq_some_iff.mp h
  rw [stripFront_eq_some_iff] at hfront
  rw [stripLast_eq_some_iff] at hlast
  rw [hfront, hlast]
  rfl

def words : List String := ["True", "true", "False", "false", "None"]

theorem read?_of_not_mem_words (h : String.ofList cs ∉ words) :
    read? cs = match Binary64.read? cs with
      | some x => some (number x)
      | none => ((unquote '\'' cs).or (unquote '"' cs)).map fun t ↦ text (String.ofList t) := by
  unfold read?
  split
  case h_1 hword => exact absurd (hword ▸ by decide) h
  case h_2 hword => exact absurd (hword ▸ by decide) h
  case h_3 hword => exact absurd (hword ▸ by decide) h
  case h_4 hword => exact absurd (hword ▸ by decide) h
  case h_5 hword => exact absurd (hword ▸ by decide) h
  case h_6 => rfl

theorem read?_quoted (t : List Char) :
    read? ('\'' :: t) =
      ((unquote '\'' ('\'' :: t)).or (unquote '"' ('\'' :: t))).map fun t ↦ text (String.ofList t) := by
  have hword : String.ofList ('\'' :: t) ∉ words := by
    intro hmem
    have hhead : (words.all fun w ↦ w.toList.head? != some '\'') = true := by decide
    have hquote := List.all_eq_true.mp hhead _ hmem
    rw [String.toList_ofList] at hquote
    cases hquote
  have hnumber : Binary64.read? ('\'' :: t) = none := by
    change Binary64.readMagnitude ('\'' :: t) = none
    rw [Binary64.readMagnitude_of_head rfl (by decide) (by decide)]
    rfl
  rw [read?_of_not_mem_words hword, hnumber]

theorem read?_numeral {x : Float} (h : ∀ c ∈ cs, Binary64.IsNumeral c) (hread : Binary64.read? cs = some x) :
    read? cs = some (number x) := by
  have hword : String.ofList cs ∉ words := by
    intro hmem
    have hall : (words.all fun w ↦ w.toList.contains 'e') = true := by decide
    have he := List.all_eq_true.mp hall _ hmem
    rw [String.toList_ofList, List.contains_iff_mem] at he
    rcases h 'e' he with h | h
    · cases h
    · exact absurd h (by decide)
  rw [read?_of_not_mem_words hword, hread]

theorem read?_written (a : Argument) : read? a.written.toList = some a := by
  cases a with
  | number x =>
    rw [toList_written_number]
    exact read?_numeral (fun c ↦ Binary64.isNumeral_of_mem_chars) (Binary64.read?_chars x)
  | text t =>
    rw [toList_written_text, read?_quoted, unquote_quoted, Option.some_or, Option.map_some, String.ofList_toList]

theorem subset_of_read_text {t : String} (h : read? cs = some (text t)) : t.toList ⊆ cs := by
  unfold read? at h
  split at h
  case h_5 hword =>
    cases h
    rw [← hword, String.toList_ofList]
    exact List.Subset.refl cs
  case h_6 =>
    split at h
    · cases h
    · obtain ⟨t', hquote, ht'⟩ := Option.map_eq_some_iff.mp h
      cases ht'
      rw [String.toList_ofList]
      have hcs : ∃ quote, cs = quote :: (t' ++ [quote]) := by
        rcases Option.or_eq_some_iff.mp hquote with hquote | ⟨-, hquote⟩
        · exact ⟨_, eq_of_unquote hquote⟩
        · exact ⟨_, eq_of_unquote hquote⟩
      obtain ⟨quote, rfl⟩ := hcs
      exact List.subset_cons_of_subset _ (List.subset_append_left t' [quote])
  all_goals cases h

theorem mem_of_mem_written (h : read? cs = some a) (hc : c ∈ a.written.toList) :
    c ∈ cs ∨ c = '\'' ∨ Binary64.IsNumeral c := by
  cases a with
  | number x =>
    rw [toList_written_number] at hc
    exact .inr (.inr (Binary64.isNumeral_of_mem_chars hc))
  | text t =>
    have ht := subset_of_read_text h
    rw [toList_written_text] at hc
    rcases List.mem_cons.mp hc with hc | hc
    · exact .inr (.inl hc)
    · rcases List.mem_append.mp hc with hc | hc
      · exact .inl (ht hc)
      · exact .inr (.inl (List.mem_singleton.mp hc))

theorem isTrimmed_written (a : Argument) : IsTrimmed a.written.toList := by
  cases a with
  | number x =>
    rw [toList_written_number]
    exact isTrimmed_of_forall fun c hc ↦ (Binary64.isNumeral_of_mem_chars hc).not_isBlank
  | text t =>
    rw [toList_written_text]
    constructor
    · exact fun c hc ↦ by cases hc; rfl
    · rw [← List.cons_append, List.getLast?_append]
      exact fun c hc ↦ by cases hc; rfl

theorem written_ne_nil (a : Argument) : a.written.toList ≠ [] := by
  cases a with
  | number x =>
    rw [toList_written_number]
    exact Binary64.chars_ne_nil x
  | text t =>
    rw [toList_written_text]
    exact List.cons_ne_nil _ _

end Argument

theorem list_beq_self_iff {α : Type} [BEq α] {xs : List α} : (xs == xs) = true ↔ ∀ x ∈ xs, (x == x) = true := by
  induction xs with
  | nil => simp
  | cons x xs ih => simp [ih]

theorem Binary64.beq_self_iff (x : Float) : (x == x) = true ↔ x.isNaN = false := by
  have hbeq : (x == x) = ((parts x).compare (parts x) == some .eq) := rfl
  have hnan : x.isNaN = (parts x).isNaN := rfl
  have hcanonical := isCanonical_parts x
  rw [hbeq, hnan]
  generalize parts x = u at hcanonical
  cases u with
  | notANumber => decide
  | infinity s => cases s <;> decide
  | zero | finite =>
    rw [compare_parts hcanonical hcanonical rfl rfl, compare_eq_iff_eq.mpr rfl]
    exact iff_of_true rfl rfl

theorem Argument.beq_self_iff (a : Argument) : (a == a) = true ↔ ∀ x ∈ a.number?, x.isNaN = false := by
  cases a with
  | number x =>
    change (x == x) = true ↔ _
    rw [Binary64.beq_self_iff]
    simp [number?]
  | text t =>
    change (t == t) = true ↔ _
    simp [number?]

namespace Call

variable {call : Call}

/-- What stays in one piece between commas and within brackets. -/
structure IsPiece (piece : List Char) : Prop where
  trimmed : IsTrimmed piece
  ne_nil : piece ≠ []
  clean : ∀ c ∈ piece, c ∉ "(),".toList

structure Denotes (piece : List Char) (a : Argument) : Prop extends IsPiece piece where
  positional : '=' ∉ piece
  read_eq : Argument.read? piece = some a

/-- Keywords and values that a piece can be made of. -/
structure IsKeyword (p : String × Argument) : Prop where
  trimmed : IsTrimmed p.1.toList
  key : ∀ c ∈ p.1.toList, c ∉ "(),=".toList
  value : ∀ c ∈ p.2.written.toList, c ∉ "(),".toList

def keyword (p : String × Argument) : List Char := p.1.toList ++ '=' :: p.2.written.toList

theorem not_mem_of_not_mem {c : Char} (h : c ∉ "(),=".toList) : c ∉ "(),".toList := fun hmem ↦
  h (List.mem_append_left ['='] hmem)

theorem IsKeyword.isPiece {p : String × Argument} (h : IsKeyword p) : IsPiece (keyword p) := by
  refine ⟨⟨?_, fun c hc ↦ ?_⟩, List.append_ne_nil_of_right_ne_nil _ (List.cons_ne_nil _ _), fun c hc ↦ ?_⟩
  · have htrimmed := h.trimmed
    unfold keyword
    generalize p.1.toList = key at htrimmed
    cases key with
    | nil => exact fun c hc ↦ by cases hc; rfl
    | cons c key => exact htrimmed.head
  · refine p.2.isTrimmed_written.last c ?_
    rw [keyword, List.append_cons, List.getLast?_append_of_ne_nil _ p.2.written_ne_nil] at hc
    exact hc
  · rcases List.mem_append.mp hc with hc | hc
    · exact not_mem_of_not_mem (h.key c hc)
    · rcases List.mem_cons.mp hc with rfl | hc
      · decide
      · exact h.value c hc

theorem Denotes.addPiece_eq {name : String} {args : List Argument} {piece : List Char} {a : Argument}
    (h : Denotes piece a) : addPiece { name, args } piece = some { name, args := args ++ [a] } := by
  unfold addPiece
  rw [splitFirst_eq_none_iff.mpr h.positional]
  dsimp only
  rw [h.read_eq]
  rfl

theorem IsKeyword.addPiece_eq {p : String × Argument} (h : IsKeyword p) (call : Call) :
    addPiece call (keyword p) = some { call with kwargs := call.kwargs ++ [p] } := by
  unfold addPiece keyword
  rw [splitFirst_append fun hmem ↦ h.key '=' hmem (by decide)]
  dsimp only
  rw [p.2.isTrimmed_written.trim_eq, p.2.read?_written, h.trimmed.trim_eq, String.ofList_toList]
  rfl

theorem foldlM_args {name : String} {pieces : List (List Char)} (pre : List Argument) {args : List Argument}
    (h : List.Forall₂ Denotes pieces args) :
    pieces.foldlM addPiece { name, args := pre } = some { name, args := pre ++ args } := by
  induction h generalizing pre with
  | nil => rw [List.append_nil]; rfl
  | cons hpiece _ ih =>
    rw [List.foldlM_cons, hpiece.addPiece_eq]
    change List.foldlM _ _ _ = _
    rw [ih, List.append_assoc]
    rfl

theorem foldlM_kwargs (call : Call) {kwargs : List (String × Argument)} (h : ∀ p ∈ kwargs, IsKeyword p) :
    (kwargs.map keyword).foldlM addPiece call = some { call with kwargs := call.kwargs ++ kwargs } := by
  induction kwargs generalizing call with
  | nil => rw [List.append_nil]; rfl
  | cons p kwargs ih =>
    rw [List.map_cons, List.foldlM_cons, (h p List.mem_cons_self).addPiece_eq]
    change List.foldlM _ _ _ = _
    rw [ih _ fun p' hp' ↦ h p' (List.mem_cons_of_mem p hp')]
    dsimp only
    rw [List.append_assoc]
    rfl

theorem not_mem_name {name : List Char} (h : isIdentifier name = true) {c : Char}
    (hc : (c.isAlphanum || c = '_') = false) : c ∉ name := by
  intro hmem
  rw [isIdentifier, Bool.and_eq_true, List.all_eq_true] at h
  rw [h.2 c hmem] at hc
  cases hc

theorem isTrimmed_name {name : List Char} (h : isIdentifier name = true) : IsTrimmed name := by
  have hblanks : blanks.all (fun c ↦ !(c.isAlphanum || c = '_')) = true := by decide
  rw [isIdentifier, Bool.and_eq_true, List.all_eq_true] at h
  exact isTrimmed_of_forall fun c hc ↦ isBlank_eq_false_iff.mpr (not_mem_of_all hblanks (h.2 c hc))

theorem mem_intercalate {sep : List Char} {parts : List (List Char)} {c : Char} (h : c ∈ sep.intercalate parts) :
    c ∈ sep ∨ ∃ part ∈ parts, c ∈ part := by
  induction parts with
  | nil => cases h
  | cons part parts ih =>
    cases parts with
    | nil => exact .inr ⟨part, List.mem_cons_self, by simpa using h⟩
    | cons next parts =>
      rw [List.intercalate_cons_cons] at h
      rcases List.mem_append.mp h with h | h
      · rcases List.mem_append.mp h with h | h
        · exact .inr ⟨part, List.mem_cons_self, h⟩
        · exact .inl h
      · obtain h | ⟨part', hpart', h⟩ := ih h
        · exact .inl h
        · exact .inr ⟨part', List.mem_cons_of_mem _ hpart', h⟩

theorem splitAll_pieces {pieces : List (List Char)} (h : ∀ piece ∈ pieces, IsPiece piece) :
    ((splitAll ',' ([','].intercalate pieces)).map trim).filter (!·.isEmpty) = pieces := by
  by_cases hne : pieces = []
  · rw [hne]
    rfl
  have hsplit : splitAll ',' ([','].intercalate pieces) = pieces :=
    splitAll_intercalate hne fun piece hpiece hc ↦ (h piece hpiece).clean ',' hc (by decide)
  rw [hsplit, map_trim_eq_self fun piece hpiece ↦ (h piece hpiece).trimmed, List.filter_eq_self]
  intro piece hpiece
  simpa using (h piece hpiece).ne_nil

theorem readBody_pieces {name : List Char} {pieces : List (List Char)} (hname : isIdentifier name = true)
    (h : ∀ piece ∈ pieces, IsPiece piece) :
    readBody name ([','].intercalate pieces) = pieces.foldlM addPiece { name := String.ofList name } := by
  have hparen {c : Char} (hc : c ∈ "()".toList) : ([','].intercalate pieces).contains c = false := by
    rw [List.contains_eq_mem, decide_eq_false_iff_not]
    intro hmem
    obtain hcomma | ⟨piece, hpiece, hmem⟩ := mem_intercalate hmem
    · rw [List.mem_singleton.mp hcomma] at hc
      exact absurd hc (by decide)
    · exact (h piece hpiece).clean c hmem (List.mem_append_left [','] hc)
  unfold readBody
  rw [hname, hparen (c := '(') (by decide), hparen (c := ')') (by decide), splitAll_pieces h]
  rfl

theorem read?_pieces {name : List Char} {pieces : List (List Char)} {text : String}
    (htext : text.toList = name ++ '(' :: ([','].intercalate pieces ++ [')'])) (hname : isIdentifier name = true)
    (h : ∀ piece ∈ pieces, IsPiece piece) :
    read? text = pieces.foldlM addPiece { name := String.ofList name } := by
  have hnameTrimmed := isTrimmed_name hname
  have htrimmed : IsTrimmed (name ++ '(' :: ([','].intercalate pieces ++ [')'])) := by
    constructor
    · cases name with
      | nil => cases hname
      | cons c name => exact hnameTrimmed.head
    · rw [← List.cons_append, ← List.append_assoc, List.getLast?_append]
      exact fun c hc ↦ by cases hc; rfl
  unfold read?
  dsimp only
  rw [htext, htrimmed.trim_eq, splitFirst_append (not_mem_name hname (by decide))]
  dsimp only
  rw [stripLast_append, Option.bind_some, hnameTrimmed.trim_eq, readBody_pieces hname h]

theorem read?_parts {name text : String} {pieces : List (List Char)} {args : List Argument}
    {kwargs : List (String × Argument)}
    (htext : text.toList = name.toList ++ '(' :: ([','].intercalate (pieces ++ kwargs.map keyword) ++ [')']))
    (hname : isIdentifier name.toList = true) (hargs : List.Forall₂ Denotes pieces args)
    (hkwargs : ∀ p ∈ kwargs, IsKeyword p) : read? text = some { name, args, kwargs } := by
  have hpieces : ∀ piece ∈ pieces ++ kwargs.map keyword, IsPiece piece := by
    intro piece hpiece
    rcases List.mem_append.mp hpiece with hpiece | hpiece
    · obtain ⟨a, -, ha⟩ := exists_of_mem_forall₂ hargs.flip hpiece
      exact ha.toIsPiece
    · obtain ⟨p, hp, rfl⟩ := List.mem_map.mp hpiece
      exact (hkwargs p hp).isPiece
  rw [read?_pieces htext hname hpieces, String.ofList_toList, List.foldlM_append, foldlM_args [] hargs]
  change List.foldlM _ _ _ = _
  rw [foldlM_kwargs _ hkwargs]
  rfl

/-- What every call that is read is like: its parts have none of the characters that would cut them. -/
structure IsRead (call : Call) : Prop where
  name : isIdentifier call.name.toList = true
  args : ∀ a ∈ call.args, ∀ c ∈ a.written.toList, c ∉ "(),=".toList
  kwargs : ∀ p ∈ call.kwargs, IsKeyword p

theorem toList_text (call : Call) : call.text.toList = call.name.toList ++
    '(' :: ([','].intercalate (call.args.map (fun a ↦ a.written.toList) ++ call.kwargs.map keyword) ++ [')']) := by
  unfold text keyword
  simp [String.toList_intercalate, Function.comp_def]

theorem denotes_written {a : Argument} (h : ∀ c ∈ a.written.toList, c ∉ "(),=".toList) :
    Denotes a.written.toList a where
  trimmed := a.isTrimmed_written
  ne_nil := a.written_ne_nil
  clean c hc := not_mem_of_not_mem (h c hc)
  positional hmem := h '=' hmem (by decide)
  read_eq := a.read?_written

theorem IsRead.read?_text (h : call.IsRead) : read? call.text = some call := by
  refine read?_parts (toList_text call) h.name ?_ h.kwargs
  rw [List.forall₂_map_left_iff, List.forall₂_same]
  exact fun a ha ↦ denotes_written (h.args a ha)

theorem not_mem_of_isNumeral {c : Char} (h : Binary64.IsNumeral c) : c ∉ "(),=".toList := by
  rcases h with h | h
  · exact not_mem_of_all (by decide) h
  · exact not_mem_of_all (by decide) (List.contains_iff_mem.mpr h)

theorem not_mem_of_mem_written {separators cs : List Char} {a : Argument} (hsep : separators ⊆ "(),=".toList)
    (h : Argument.read? cs = some a) (hcs : ∀ c ∈ cs, c ∉ separators) : ∀ c ∈ a.written.toList, c ∉ separators := by
  intro c hc
  rcases Argument.mem_of_mem_written h hc with hc | rfl | hc
  · exact hcs c hc
  · exact fun hmem ↦ absurd (hsep hmem) (by decide)
  · exact fun hmem ↦ not_mem_of_isNumeral hc (hsep hmem)

theorem not_mem_of_ne {c : Char} (h : c ∉ "(),".toList) (hc : c ≠ '=') : c ∉ "(),=".toList := by
  change c ∉ "(),".toList ++ ['=']
  rw [List.mem_append, List.mem_singleton]
  exact not_or_intro h hc

theorem isKeyword_of_splitFirst {piece key value : List Char} {a : Argument} (hpiece : ∀ c ∈ piece, c ∉ "(),".toList)
    (hsplit : splitFirst '=' piece = some (key, value)) (hread : Argument.read? (trim value) = some a) :
    IsKeyword (String.ofList (trim key), a) := by
  obtain ⟨rfl, hkey⟩ := splitFirst_eq_some_iff.mp hsplit
  refine ⟨?_, ?_, ?_⟩
  · rw [String.toList_ofList]
    exact isTrimmed_trim key
  · rw [String.toList_ofList]
    intro c hc
    have hc := trim_subset key hc
    exact not_mem_of_ne (hpiece c (List.mem_append_left _ hc)) fun hequal ↦ hkey (hequal ▸ hc)
  · refine not_mem_of_mem_written (List.subset_append_left _ ['=']) hread fun c hc ↦ hpiece c ?_
    exact List.mem_append_right _ (List.mem_cons_of_mem _ (trim_subset value hc))

theorem IsRead.addPiece {call' : Call} {piece : List Char} (h : call.IsRead) (hpiece : ∀ c ∈ piece, c ∉ "(),".toList)
    (hadd : call.addPiece piece = some call') : call'.IsRead := by
  unfold Call.addPiece at hadd
  split at hadd
  case h_1 key value hsplit =>
    obtain ⟨a, hread, hcall⟩ := Option.bind_eq_some_iff.mp hadd
    cases hcall
    refine ⟨h.name, h.args, fun p hp ↦ ?_⟩
    rcases List.mem_append.mp hp with hp | hp
    · exact h.kwargs p hp
    · rw [List.mem_singleton.mp hp]
      exact isKeyword_of_splitFirst hpiece hsplit hread
  case h_2 hsplit =>
    have hequal := splitFirst_eq_none_iff.mp hsplit
    split at hadd
    case isTrue =>
      obtain ⟨a, hread, hcall⟩ := Option.bind_eq_some_iff.mp hadd
      cases hcall
      refine ⟨h.name, fun a' ha' ↦ ?_, h.kwargs⟩
      rcases List.mem_append.mp ha' with ha' | ha'
      · exact h.args a' ha'
      · rw [List.mem_singleton.mp ha']
        refine not_mem_of_mem_written (List.Subset.refl _) hread fun c hc ↦ not_mem_of_ne (hpiece c hc) ?_
        exact fun hc' ↦ hequal (hc' ▸ hc)
    case isFalse => cases hadd

theorem IsRead.foldlM_addPiece {call' : Call} {pieces : List (List Char)} (h : call.IsRead)
    (hpieces : ∀ piece ∈ pieces, ∀ c ∈ piece, c ∉ "(),".toList)
    (hfold : pieces.foldlM Call.addPiece call = some call') : call'.IsRead := by
  induction pieces generalizing call with
  | nil =>
    cases hfold
    exact h
  | cons piece pieces ih =>
    rw [List.foldlM_cons] at hfold
    obtain ⟨next, hadd, hfold⟩ := Option.bind_eq_some_iff.mp hfold
    exact ih (h.addPiece (hpieces piece List.mem_cons_self) hadd)
      (fun piece' hpiece' ↦ hpieces piece' (List.mem_cons_of_mem piece hpiece')) hfold

theorem isRead_of_name {name : List Char} (h : isIdentifier name = true) : IsRead { name := String.ofList name } := by
  refine ⟨?_, nofun, nofun⟩
  rwa [String.toList_ofList]

theorem isRead_of_readBody {name body : List Char} (h : readBody name body = some call) : call.IsRead := by
  unfold readBody at h
  split at h
  case isTrue hcond =>
    rw [Bool.and_eq_true, Bool.and_eq_true, Bool.not_eq_true', Bool.not_eq_true'] at hcond
    obtain ⟨⟨hname, hopen⟩, hclose⟩ := hcond
    refine (isRead_of_name hname).foldlM_addPiece (fun piece hpiece c hc hmem ↦ ?_) h
    obtain ⟨part, hpart, rfl⟩ := List.mem_map.mp (List.mem_filter.mp hpiece).1
    have hc := trim_subset part hc
    have hbody := List.contains_iff_mem.mpr (subset_of_mem_splitAll hpart hc)
    obtain rfl | rfl | rfl : c = '(' ∨ c = ')' ∨ c = ',' := by simpa using hmem
    · rw [hopen] at hbody
      cases hbody
    · rw [hclose] at hbody
      cases hbody
    · exact not_mem_of_mem_splitAll hpart hc
  case isFalse => cases h

theorem isRead_of_read? {s : String} (h : read? s = some call) : call.IsRead := by
  unfold read? at h
  dsimp only at h
  split at h
  · split at h
    case isTrue hname =>
      cases h
      exact isRead_of_name hname
    case isFalse => cases h
  · obtain ⟨body, -, hbody⟩ := Option.bind_eq_some_iff.mp h
    exact isRead_of_readBody hbody

def numbers (call : Call) : List Float := (call.args ++ call.kwargs.map Prod.snd).filterMap Argument.number?

theorem beq_self_iff (call : Call) : (call == call) = true ↔ ∀ x ∈ call.numbers, x.isNaN = false := by
  have hkwargs : ∀ kwargs : List (String × Argument),
      (kwargs == kwargs) = true ↔ ∀ a ∈ kwargs.map Prod.snd, (a == a) = true := by
    intro kwargs
    rw [list_beq_self_iff, List.forall_mem_map]
    refine forall₂_congr fun p _ ↦ ?_
    change (p.1 == p.1 && p.2 == p.2) = true ↔ _
    rw [beq_self_eq_true, Bool.true_and]
  obtain ⟨name, args, kwargs⟩ := call
  change (name == name && (args == args && kwargs == kwargs)) = true ↔ _
  rw [Bool.and_eq_true, Bool.and_eq_true, beq_self_eq_true, list_beq_self_iff, hkwargs, ← List.forall_mem_append]
  simp only [Argument.beq_self_iff, numbers, List.mem_filterMap, Option.mem_def]
  constructor
  · rintro ⟨-, h⟩ x ⟨a, ha, hx⟩
    exact h a ha x hx
  · exact fun h ↦ ⟨trivial, fun a ha x hx ↦ h x ⟨a, ha, hx⟩⟩

/-- The text of a call is the normal form of all the texts that read as it. A call equals itself unless it has an
argument that is not a number. -/
theorem normalForm_of_read? {s : String} (h : read? s = some call) :
    read? call.text = some call ∧ ((call == call) = true ↔ ∀ x ∈ call.numbers, x.isNaN = false) :=
  ⟨(isRead_of_read? h).read?_text, beq_self_iff call⟩

theorem normalForm_of_read?_quotes : ∃ call, read? " po2( None,, +1e1 , key = \"it's\" , =' x=None ' )" = some call ∧
    call.text = "po2('None',10,key='it's',=' x=None ')" ∧ read? call.text = some call ∧ (call == call) = true := by
  have hread : read? " po2( None,, +1e1 , key = \"it's\" , =' x=None ' )" = some {
    name := "po2"
    args := [.text "None", .number (Binary64.Decimal.toFloat ⟨1, 1⟩)]
    kwargs := [("key", .text "it's"), ("", .text " x=None ")] } := rfl
  obtain ⟨htext, hbeq⟩ := normalForm_of_read? hread
  refine ⟨_, hread, ?_, htext, hbeq.mpr ?_⟩
  · decide +kernel
  · intro x hx
    rw [List.mem_singleton.mp hx]
    decide +kernel

end Call

end FixedNet

import FixedNet.Parity
import FixedNet.Proofs.Binary64.Count
import FixedNet.Proofs.Binary64.Distance

namespace FixedNet

open Binary64

section Share

variable {part whole : ℕ}

theorem isNearest_share (hle : part ≤ whole) (hwhole : whole ≤ 2 ^ 53) :
    IsNearest (share part whole) (part / whole) := by
  have hexact {n : ℕ} (h : n ≤ 2 ^ 53) : (ofInt n).isFinite = true ∧ value (ofInt n) = n :=
    ofInt_exact (n := n) (by rw [Nat.abs_cast]; exact_mod_cast h)
  unfold share
  split
  case isTrue h0 =>
    rw [h0, Nat.cast_zero, div_zero, ← value_zero]
    exact isNearest_self isFinite_zero
  case isFalse h0 =>
    obtain ⟨hfp, hvp⟩ := hexact (hle.trans hwhole)
    obtain ⟨hfw, hvw⟩ := hexact hwhole
    have hdiv := isNearest_div hfp hfw (by rw [hvw]; exact_mod_cast h0)
    rwa [hvp, hvw] at hdiv

theorem share_eq_zero_iff (hle : part ≤ whole) (hwhole : whole < 2 ^ 64) :
    (share part whole == 0) = true ↔ part = 0 := by
  unfold share
  split
  case isTrue h0 => exact iff_of_true (by decide +kernel) (Nat.le_zero.mp (h0 ▸ hle))
  case isFalse h0 =>
    obtain ⟨hfp, -, habs⟩ := ofInt_lt_word (hle.trans_lt hwhole)
    obtain ⟨hfw, -, hword⟩ := ofInt_lt_word hwhole
    have hone : 1 ≤ value (ofInt whole) := one_le_value_ofInt h0 hwhole
    have hpos : 0 < value (ofInt whole) := by linarith
    have hquotient : |value (ofInt part) / value (ofInt whole)| ≤ 2 ^ (64 : ℤ) := by
      rw [abs_div, abs_of_pos hpos]
      exact (div_le_self (abs_nonneg _) hone).trans habs
    obtain ⟨hfinite, hvalue, -⟩ :=
      (isNearest_div hfp hfw hpos.ne').of_abs_le (by norm_num) (by norm_num) hquotient
    rw [beq_iff hfinite isFinite_zero, value_zero, hvalue]
    rcases Nat.eq_zero_or_pos part with rfl | hpart
    · refine iff_of_true ?_ rfl
      have hzero : value (ofInt (0 : ℕ)) = 0 := (ofInt_exact (n := 0) (by norm_num)).2
      rw [hzero, zero_div, nearest_zero]
    · have hpart' : 1 ≤ value (ofInt part) := one_le_value_ofInt hpart.ne' (hle.trans_lt hwhole)
      refine iff_of_false ?_ hpart.ne'
      -- the quotient is at least that of one and the largest count
      refine (nearest_pos ?_).ne'
      rw [le_div_iff₀ hpos]
      rw [abs_of_pos hpos] at hword
      calc (2 : ℚ) ^ (-1074 : ℤ) * value (ofInt whole) ≤ 2 ^ (-1074 : ℤ) * 2 ^ (64 : ℤ) :=
            mul_le_mul_of_nonneg_left hword (two_zpow_pos _).le
        _ = 2 ^ (-1010 : ℤ) := (zpow_add₀ two_ne_zero _ _).symm
        _ ≤ 1 := zpow_le_one_of_nonpos₀ one_le_two (by norm_num)
        _ ≤ value (ofInt part) := hpart'

end Share

def Apart (p : Float × Float) : Prop := p.1 < p.2 ∨ p.2 < p.1

instance : DecidablePred Apart := fun p ↦ inferInstanceAs (Decidable (p.1 < p.2 ∨ p.2 < p.1))

def unfaulted (rows : List (Except Fault (List Float) × List Float)) : List (List Float × List Float) :=
  rows.filterMap fun p ↦ p.1.toOption.map fun values ↦ (values, p.2)

def entriesOf (rows : List (List Float × List Float)) : List (Float × Float) := rows.flatMap fun p ↦ p.1.zip p.2

namespace Tally

variable {t : Tally} {rows : List (Except Fault (List Float) × List Float)}

theorem foldl_addEntry (t : Tally) (entries : List (Float × Float)) :
    (entries.foldl addEntry t).faults = t.faults ∧ (entries.foldl addEntry t).agreeing = t.agreeing ∧
      (entries.foldl addEntry t).entries = t.entries + entries.length ∧
      (entries.foldl addEntry t).mismatched = t.mismatched + entries.countP Apart := by
  induction entries generalizing t with
  | nil => exact ⟨rfl, rfl, rfl, rfl⟩
  | cons p entries ih =>
    obtain ⟨hfaults, hagreeing, hentries, hmismatched⟩ := ih (t.addEntry p)
    rw [List.foldl_cons, List.length_cons, List.countP_cons]
    refine ⟨hfaults, hagreeing, hentries.trans ?_, hmismatched.trans ?_⟩
    · change t.entries + 1 + entries.length = _
      omega
    · have happart : 0 < (p.1 - p.2).abs ↔ Apart p := zero_lt_abs_sub_iff
      simp only [addEntry, happart, decide_eq_true_eq]
      omega

/-- What is counted in some rows. -/
structure Counts (t : Tally) (rows : List (Except Fault (List Float) × List Float)) : Prop where
  faults : t.faults = rows.countP (!·.1.isOk)
  entries : t.entries = (entriesOf (unfaulted rows)).length
  mismatched : t.mismatched = (entriesOf (unfaulted rows)).countP Apart
  agreeing : t.agreeing = (unfaulted rows).countP fun p ↦ argmax p.1 = argmax p.2

theorem counts_nil : Counts {} [] := ⟨rfl, rfl, rfl, rfl⟩

theorem Counts.addRow (h : t.Counts rows) (p : Except Fault (List Float) × List Float) :
    (t.addRow p).Counts (rows ++ [p]) := by
  obtain ⟨hfaults, hentries, hmismatched, hagreeing⟩ := h
  obtain ⟨row, expected⟩ := p
  cases row with
  | error e =>
    have hunfaulted : unfaulted (rows ++ [(.error e, expected)]) = unfaulted rows := by
      rw [unfaulted, List.filterMap_append]
      exact List.append_nil _
    refine ⟨?_, hunfaulted ▸ hentries, hunfaulted ▸ hmismatched, hunfaulted ▸ hagreeing⟩
    rw [List.countP_append, ← hfaults]
    rfl
  | ok values =>
    have hunfaulted : unfaulted (rows ++ [(.ok values, expected)]) = unfaulted rows ++ [(values, expected)] := by
      rw [unfaulted, List.filterMap_append]
      rfl
    have hjoined : entriesOf (unfaulted rows ++ [(values, expected)]) =
        entriesOf (unfaulted rows) ++ values.zip expected := by
      rw [entriesOf, List.flatMap_append, List.flatMap_singleton]
      rfl
    obtain ⟨hfaults', hagreeing', hentries', hmismatched'⟩ := foldl_addEntry t (values.zip expected)
    refine ⟨?_, ?_, ?_, ?_⟩
    · rw [List.countP_append, ← hfaults]
      exact hfaults'
    · rw [hunfaulted, hjoined, List.length_append, ← hentries]
      exact hentries'
    · rw [hunfaulted, hjoined, List.countP_append, ← hmismatched]
      exact hmismatched'
    · rw [hunfaulted, List.countP_append, ← hagreeing, List.countP_singleton]
      simp only [decide_eq_true_eq]
      exact congrArg (· + _) hagreeing'

theorem counts_foldl (rows : List (Except Fault (List Float) × List Float)) : (rows.foldl addRow {}).Counts rows := by
  induction rows using List.reverseRecOn with
  | nil => exact counts_nil
  | append_singleton rows p ih =>
    rw [List.foldl_append]
    exact ih.addRow p

end Tally

theorem length_unfaulted (rows : List (Except Fault (List Float) × List Float)) :
    rows.countP (!·.1.isOk) + (unfaulted rows).length = rows.length := by
  induction rows with
  | nil => rfl
  | cons p rows ih =>
    obtain ⟨row, expected⟩ := p
    rw [List.countP_cons, List.length_cons, ← ih]
    cases row with
    | error e =>
      change _ + 1 + (unfaulted rows).length = _
      omega
    | ok values => rfl

theorem countP_apart (entries : List (Float × Float)) :
    entries.countP Apart + entries.countP (fun p ↦ p.1.isNaN || p.2.isNaN) = entries.countP fun p ↦ p.1 != p.2 := by
  induction entries with
  | nil => rfl
  | cons p entries ih =>
    rw [List.countP_cons, List.countP_cons, List.countP_cons, ← ih]
    have hnot : ¬Apart p ↔ (p.1 == p.2) = true ∨ p.1.isNaN = true ∨ p.2.isNaN = true := not_lt_or_lt_iff
    rw [← Bool.or_eq_true] at hnot
    have hsplit : (if Apart p then 1 else 0) + (if (p.1.isNaN || p.2.isNaN) = true then 1 else 0) =
        if (p.1 != p.2) = true then 1 else 0 := by
      rw [bne]
      cases hbeq : p.1 == p.2 with
      | true =>
        obtain ⟨hx, hy⟩ := isNaN_of_beq hbeq
        rw [if_neg (hnot.mpr (.inl hbeq)), hx, hy]
        rfl
      | false =>
        cases hnan : p.1.isNaN || p.2.isNaN with
        | true =>
          rw [if_neg (hnot.mpr (.inr hnan))]
          rfl
        | false =>
          rw [hbeq, hnan] at hnot
          rw [if_pos (by simpa using hnot)]
          rfl
    simp only [decide_eq_true_eq]
    omega

variable (b : Batch) (expected : List (List Float))

def Batch.comparedRows : List (List Float × List Float) := unfaulted (b.rows.zip expected)

def Batch.comparedEntries : List (Float × Float) := entriesOf (b.comparedRows expected)

theorem countP_zip (b : Batch) (expected : List (List Float)) : (b.rows.zip expected).countP (!·.1.isOk) =
    (b.rows.take (min b.rows.length expected.length)).countP (!·.isOk) := by
  have hfst : (b.rows.zip expected).map Prod.fst = b.rows.take (min b.rows.length expected.length) := by
    rw [List.zip_eq_zip_take_min, List.map_fst_zip (by simp)]
  rw [← hfst, List.countP_map]
  rfl

/-- Among the rows that both sides have, the faulted ones are counted and the others compared. Agreement and
mismatch are the shares of the rows with the same largest entry and of the pairs of entries that are apart. A
pair with NaN in it is missing from the unequal ones, so that a mismatch of zero says that each pair is equal or
has NaN in it. -/
theorem compare_counts :
    (b.compare expected).rows = min b.rows.length expected.length ∧
    (b.compare expected).faults = (b.rows.take (b.compare expected).rows).countP (!·.isOk) ∧
    (b.compare expected).faults + (b.comparedRows expected).length = (b.compare expected).rows ∧
    (b.compare expected).agreement = share ((b.comparedRows expected).countP fun p ↦ argmax p.1 = argmax p.2)
      (b.comparedRows expected).length ∧
    (b.compare expected).mismatch =
      share ((b.comparedEntries expected).countP Apart) (b.comparedEntries expected).length ∧
    (∀ part whole, part ≤ whole → whole ≤ 2 ^ 53 → IsNearest (share part whole) (part / whole)) ∧
    (b.comparedEntries expected).countP Apart + (b.comparedEntries expected).countP (fun p ↦ p.1.isNaN || p.2.isNaN) =
      (b.comparedEntries expected).countP (fun p ↦ p.1 != p.2) ∧
    ((b.comparedEntries expected).length < 2 ^ 64 → (((b.compare expected).mismatch == 0) = true ↔
      ∀ p ∈ b.comparedEntries expected, (p.1 == p.2) = true ∨ p.1.isNaN = true ∨ p.2.isNaN = true)) := by
  obtain ⟨hfaults, hentries, hmismatched, hagreeing⟩ := Tally.counts_foldl (b.rows.zip expected)
  have hcompared : (b.compare expected).faults + (b.comparedRows expected).length = (b.compare expected).rows := by
    have hlength := length_unfaulted (b.rows.zip expected)
    rw [← hfaults, List.length_zip] at hlength
    exact hlength
  have hagreement : (b.compare expected).agreement =
      share ((b.comparedRows expected).countP fun p ↦ argmax p.1 = argmax p.2) (b.comparedRows expected).length :=
    congrArg₂ share hagreeing (Nat.sub_eq_of_eq_add' hcompared.symm)
  have hmismatch : (b.compare expected).mismatch =
      share ((b.comparedEntries expected).countP Apart) (b.comparedEntries expected).length :=
    congrArg₂ share hmismatched hentries
  refine ⟨rfl, hfaults.trans (countP_zip b expected), hcompared, hagreement, hmismatch, ?_, countP_apart _, ?_⟩
  · exact fun _ _ ↦ isNearest_share
  · intro hword
    rw [hmismatch, share_eq_zero_iff List.countP_le_length hword, List.countP_eq_zero]
    refine forall₂_congr fun p _ ↦ ?_
    rw [decide_eq_true_eq]
    exact not_lt_or_lt_iff

def overflowing : Batch :=
  ⟨[.ok [0.5, 1 / 0, 2], .error ⟨"unit", .accumulating, .numeric (.overflow .addition)⟩, .ok [1, 0]]⟩

theorem compare_counts_overflowing :
    (overflowing.comparedEntries [[0 / 0, 1 / 0, 3], [0], [1, 0], [7]]).length < 2 ^ 64 ∧
      (overflowing.compare [[0 / 0, 1 / 0, 3], [0], [1, 0], [7]]).faults = 1 ∧
      (overflowing.compare [[0 / 0, 1 / 0, 3], [0], [1, 0], [7]]).mismatch = share 1 5 ∧
      ((overflowing.compare [[0 / 0, 1 / 0, 3], [0], [1, 0], [7]]).mismatch == 0) = false := by
  have hword : (overflowing.comparedEntries [[0 / 0, 1 / 0, 3], [0], [1, 0], [7]]).length < 2 ^ 64 := by decide +kernel
  have hmem : ((2, 3) : Float × Float) ∈ overflowing.comparedEntries [[0 / 0, 1 / 0, 3], [0], [1, 0], [7]] :=
    .tail _ (.tail _ (.head _))
  obtain ⟨-, hfaults, -, -, hmismatch, -, -, hzero⟩ := compare_counts overflowing [[0 / 0, 1 / 0, 3], [0], [1, 0], [7]]
  refine ⟨hword, hfaults.trans rfl, hmismatch.trans (congrArg₂ share (by decide +kernel) rfl), ?_⟩
  rw [Bool.eq_false_iff, ne_eq, hzero hword]
  exact fun hall ↦ absurd (hall _ hmem) (by decide +kernel)

/-- A pair is unequal, as NaN is expected, but the mismatch is zero. -/
theorem mismatch_misses_NaN :
    (Batch.mk [.ok [0.5]]).comparedEntries [[0 / 0]] = [(0.5, 0 / 0)] ∧ ((0.5 : Float) != 0 / 0) = true ∧
      ((Batch.mk [.ok [0.5]]).compare [[0 / 0]]).mismatch = 0 :=
  ⟨rfl, by decide +kernel, by decide +kernel⟩

end FixedNet

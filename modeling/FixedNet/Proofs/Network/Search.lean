import FixedNet.Proofs.Network.Order

namespace FixedNet

variable {n : ℕ} {inputs : Fin n → List (Fin n)}

/-- The readers of a node in turn, each as often as it reads the node. -/
def readersOf (inputs : Fin n → List (Fin n)) (i : Fin n) : List (Fin n) :=
  (List.finRange n).flatMap fun r ↦ List.replicate ((inputs r).count i) r

section alongEdges

variable {α : Type} (change : Fin n → α → α)

theorem get_foldl_countEdge (reader : Fin n) (is : List (Fin n)) (table : Vector α n) (i : Fin n) :
    (is.foldl (countEdge change reader) table).get i =
      (List.replicate (is.count i) reader).foldl (fun a r ↦ change r a) (table.get i) := by
  induction is generalizing table with
  | nil => rfl
  | cons j is ih =>
    rw [List.foldl_cons, ih]
    by_cases hj : j = i
    · subst hj
      rw [List.count_cons_self, List.replicate_succ, List.foldl_cons, countEdge, get_set_self]
      rfl
    · rw [List.count_cons_of_ne hj, countEdge, get_set_ne _ (Ne.symm hj)]

theorem get_alongEdges (start : α) (i : Fin n) :
    (alongEdges inputs change start).get i = (readersOf inputs i).foldl (fun a r ↦ change r a) start := by
  have h (readers : List (Fin n)) (table : Vector α n) :
      (readers.foldl (fun table reader ↦ (inputs reader).foldl (countEdge change reader) table) table).get i =
        (readers.flatMap fun r ↦ List.replicate ((inputs r).count i) r).foldl (fun a r ↦ change r a) (table.get i) := by
    induction readers generalizing table with
    | nil => rfl
    | cons r readers ih => rw [List.foldl_cons, ih, get_foldl_countEdge, List.flatMap_cons, List.foldl_append]
  rw [alongEdges, h, readersOf, Vector.get_replicate]

end alongEdges

theorem get_consumers (i : Fin n) : (consumers inputs).get i = readersOf inputs i := by
  rw [consumers, get_alongEdges, List.foldl_append_eq_append, List.nil_append, ← List.flatMap_def,
    List.flatMap_singleton']

theorem get_consumerCounts (i : Fin n) : (consumerCounts inputs).get i = (readersOf inputs i).length := by
  have h (readers : List (Fin n)) (count : ℕ) :
    readers.foldl (fun count _ ↦ count + 1) count = count + readers.length := by
    induction readers generalizing count with
    | nil => rfl
    | cons r readers ih => rw [List.foldl_cons, ih, List.length_cons, Nat.add_right_comm, Nat.add_assoc]
  rw [consumerCounts, get_alongEdges, h, Nat.zero_add]

theorem get_consumerCounts_eq_zero_iff {i : Fin n} : (consumerCounts inputs).get i = 0 ↔ ∀ r, i ∉ inputs r := by
  rw [get_consumerCounts, List.length_eq_zero_iff, readersOf, List.flatMap_eq_nil_iff]
  simp [List.count_eq_zero]

namespace Search

variable {s : Search n}

/-- The state after the inputs of some nodes have been taken, of each node as many as are given. -/
structure After (s : Search n) (readers : List (Fin n)) (taken : Fin n → ℕ) (s' : Search n) : Prop where
  order_eq : s'.order = s.order
  ready_eq : s'.ready = s.ready ++ readers.filter fun r ↦ 0 < taken r ∧ s.pending.get r = taken r
  pending_eq : ∀ i, s'.pending.get i = s.pending.get i - if i ∈ readers then taken i else 0

theorem after_replicate {r : Fin n} {m : ℕ} (hm : m ≤ s.pending.get r) :
    s.After [r] (fun _ ↦ m) ((List.replicate m r).foldl arrive s) := by
  induction m generalizing s with
  | zero => exact ⟨rfl, by simp, by simp⟩
  | succ m ih =>
    have hself : (s.arrive r).pending.get r = s.pending.get r - 1 := get_set_self _ _ _
    obtain ⟨horder, hready, hpending⟩ := ih (s := s.arrive r) (by omega)
    rw [List.replicate_succ, List.foldl_cons]
    refine ⟨horder, ?_, fun i ↦ ?_⟩
    · have harrive : (s.arrive r).ready = if s.pending.get r - 1 = 0 then s.ready ++ [r] else s.ready := rfl
      rw [hready, harrive, List.filter_singleton, List.filter_singleton, hself]
      by_cases hlast : s.pending.get r - 1 = 0
      · obtain rfl : m = 0 := by omega
        have hone : s.pending.get r = 1 := by omega
        simp [hone]
      · have hmore : s.pending.get r - 1 = m ↔ s.pending.get r = m + 1 := by omega
        have hpos : s.pending.get r = m + 1 → m ≠ 0 := by omega
        by_cases hm' : s.pending.get r = m + 1
        · simp [hm', hpos hm', Nat.pos_of_ne_zero]
        · simp [hlast, hmore, hm']
    · rw [hpending]
      by_cases hi : i = r
      · subst hi
        rw [hself]
        simp only [List.mem_singleton, if_true]
        omega
      · have hne : (s.arrive r).pending.get i = s.pending.get i := get_set_ne _ hi _
        rw [hne]
        simp [hi]

theorem after_flatMap {readers : List (Fin n)} {taken : Fin n → ℕ} (hn : readers.Nodup)
    (h : ∀ r ∈ readers, taken r ≤ s.pending.get r) :
    s.After readers taken ((readers.flatMap fun r ↦ List.replicate (taken r) r).foldl arrive s) := by
  induction readers generalizing s with
  | nil => exact ⟨rfl, by simp, by simp⟩
  | cons r readers ih =>
    obtain ⟨hr, hn⟩ := List.nodup_cons.mp hn
    obtain ⟨horder, hready, hpending⟩ := after_replicate (h r List.mem_cons_self)
    rw [List.flatMap_cons, List.foldl_append]
    generalize (List.replicate (taken r) r).foldl arrive s = s' at *
    have hsame {i : Fin n} (hi : i ∈ readers) : s'.pending.get i = s.pending.get i := by
      have hne : i ≠ r := fun heq ↦ hr (heq ▸ hi)
      rw [hpending]
      simp [hne]
    obtain ⟨horder', hready', hpending'⟩ := ih (s := s') hn fun i hi ↦ hsame hi ▸ h i (List.mem_cons_of_mem r hi)
    refine ⟨horder'.trans horder, ?_, fun i ↦ ?_⟩
    · have hfilter : (readers.filter fun i ↦ 0 < taken i ∧ s'.pending.get i = taken i) =
          readers.filter fun i ↦ 0 < taken i ∧ s.pending.get i = taken i :=
        List.filter_congr fun i hi ↦ by rw [hsame hi]
      rw [hready', hready, List.append_assoc, hfilter]
      congr 1
      by_cases hlast : 0 < taken r ∧ s.pending.get r = taken r
      · rw [List.filter_cons_of_pos (by simpa using hlast), List.filter_cons_of_pos (by simpa using hlast)]
        rfl
      · rw [List.filter_cons_of_neg (by simpa using hlast), List.filter_cons_of_neg (by simpa using hlast)]
        rfl
    · rw [hpending', hpending]
      by_cases hi : i = r
      · subst hi
        simp [hr]
      · simp [hi]

def readyAfter (inputs : Fin n → List (Fin n)) (done : List (Fin n)) (i : Fin n) : List (Fin n) :=
  (List.finRange n).filter fun r ↦ i ∈ inputs r ∧ ∀ j ∈ inputs r, j ∈ done

theorem mem_readyAfter {done : List (Fin n)} {i r : Fin n} :
    r ∈ readyAfter inputs done i ↔ i ∈ inputs r ∧ ∀ j ∈ inputs r, j ∈ done := by
  simp [readyAfter]

/-- The counters count the edges to nodes that have not been taken; nodes are ready when that leaves none. -/
structure Counts (inputs : Fin n → List (Fin n)) (s : Search n) : Prop where
  pending_eq : ∀ i, s.pending.get i = (inputs i).countP (· ∉ s.order)
  nodup : (s.order ++ s.ready).Nodup
  mem_iff : ∀ i, i ∈ s.order ++ s.ready ↔ ∀ j ∈ inputs i, j ∈ s.order
  inOrder : InOrder inputs (s.order ++ s.ready)

theorem pending_start (i : Fin n) : (start inputs).pending.get i = (inputs i).length := Vector.getElem_ofFn i.isLt

theorem ready_start : (start inputs).ready = (List.finRange n).filter fun i ↦ (inputs i).isEmpty := by
  refine List.filter_congr fun i _ ↦ ?_
  change decide ((start inputs).pending.get i = 0) = _
  rw [pending_start, Bool.eq_iff_iff, decide_eq_true_iff, List.length_eq_zero_iff, List.isEmpty_iff]

theorem counts_start (inputs : Fin n → List (Fin n)) : Counts inputs (start inputs) where
  pending_eq i := by
    rw [pending_start]
    exact (List.countP_eq_length.mpr fun j _ ↦ by simp [start]).symm
  nodup := (List.nodup_finRange n).filter _
  mem_iff i := by
    rw [ready_start]
    simp [start, List.eq_nil_iff_forall_not_mem]
  inOrder := by
    intro before i after heq j hj
    have hi : i ∈ (start inputs).ready := by
      rw [show (start inputs).ready = _ from heq]
      simp
    rw [ready_start] at hi
    have hempty : inputs i = [] := by simpa using hi
    simp [hempty] at hj

theorem countP_notMem_concat {order : List (Fin n)} {i : Fin n} (hi : i ∉ order) (l : List (Fin n)) :
    l.countP (· ∉ order) = l.countP (· ∉ order ++ [i]) + l.count i := by
  induction l with
  | nil => rfl
  | cons j l ih =>
    by_cases hj : j = i
    · subst hj
      rw [List.count_cons_self, List.countP_cons_of_pos (by simpa using hi), List.countP_cons_of_neg (by simp), ih]
      rfl
    · rw [List.count_cons_of_ne hj]
      by_cases hmem : j ∈ order
      · rw [List.countP_cons_of_neg (by simpa using hmem), List.countP_cons_of_neg (by simp [hmem]), ih]
      · rw [List.countP_cons_of_pos (by simpa using hmem), List.countP_cons_of_pos (by simp [hmem, hj]), ih]
        omega

theorem Counts.notMem_of_ready (h : s.Counts inputs) {i : Fin n} {rest : List (Fin n)} (hready : s.ready = i :: rest) :
    i ∉ s.order := by
  have hnodup := h.nodup
  rw [hready, List.nodup_append] at hnodup
  exact fun hmem ↦ hnodup.2.2 i hmem i List.mem_cons_self rfl

/-- What a step does: the first ready node is taken, and the nodes that read it and nothing that is still to be taken
get ready. -/
theorem Counts.step_eq (h : s.Counts inputs) {i : Fin n} {rest : List (Fin n)} (hready : s.ready = i :: rest) :
    (s.step (consumers inputs)).order = s.order ++ [i] ∧
      (s.step (consumers inputs)).ready = rest ++ readyAfter inputs (s.order ++ [i]) i ∧
      ∀ r, (s.step (consumers inputs)).pending.get r = (inputs r).countP (· ∉ s.order ++ [i]) := by
  have hi := h.notMem_of_ready hready
  have hpending (r : Fin n) : s.pending.get r = (inputs r).countP (· ∉ s.order ++ [i]) + (inputs r).count i := by
    rw [h.pending_eq, countP_notMem_concat hi]
  have hstep : s.step (consumers inputs) =
      (readersOf inputs i).foldl arrive { s with ready := rest, order := s.order ++ [i] } := by
    rw [step, hready]
    dsimp only
    rw [← get_consumers]
    rfl
  have htaken (r : Fin n) (_ : r ∈ List.finRange n) : (inputs r).count i ≤ s.pending.get r := by
    rw [hpending r]
    omega
  obtain ⟨horder, hready', hpending'⟩ :=
    after_flatMap (s := { s with ready := rest, order := s.order ++ [i] }) (List.nodup_finRange n) htaken
  rw [hstep]
  refine ⟨horder, ?_, fun r ↦ ?_⟩
  · rw [readersOf, hready', readyAfter]
    congr 1
    refine List.filter_congr fun r _ ↦ ?_
    rw [decide_eq_decide, List.count_pos_iff, hpending r, Nat.add_eq_right, List.countP_eq_zero]
    simp only [decide_eq_true_eq, not_not]
  · rw [readersOf, hpending', if_pos (List.mem_finRange r), hpending r]
    omega

theorem Counts.step (h : s.Counts inputs) : (s.step (consumers inputs)).Counts inputs := by
  cases hready : s.ready with
  | nil =>
    have hstep : s.step (consumers inputs) = s := by rw [Search.step, hready]
    rwa [hstep]
  | cons i rest =>
    obtain ⟨horder, hready', hpending⟩ := h.step_eq hready
    have hqueue : (s.step (consumers inputs)).order ++ (s.step (consumers inputs)).ready =
        (s.order ++ s.ready) ++ readyAfter inputs (s.order ++ [i]) i := by
      rw [horder, hready', hready]
      simp
    have hi := h.notMem_of_ready hready
    refine ⟨fun r ↦ by rw [hpending, horder], ?_, fun c ↦ ?_, ?_⟩
    · rw [hqueue]
      refine h.nodup.append ((List.nodup_finRange n).filter _) fun c hc hnew ↦ ?_
      exact hi ((h.mem_iff c).mp hc i (mem_readyAfter.mp hnew).1)
    · rw [hqueue, horder, List.mem_append, h.mem_iff, mem_readyAfter]
      constructor
      · rintro (hc | ⟨-, hc⟩) j hj
        · exact List.mem_append_left _ (hc j hj)
        · exact hc j hj
      · intro hc
        by_cases hic : i ∈ inputs c
        · exact .inr ⟨hic, hc⟩
        · refine .inl fun j hj ↦ (List.mem_append.mp (hc j hj)).resolve_right fun hji ↦ ?_
          exact hic (List.mem_singleton.mp hji ▸ hj)
    · rw [hqueue]
      refine h.inOrder.append fun c hc j hj ↦ ?_
      have hmem := (mem_readyAfter.mp hc).2 j hj
      rw [hready]
      simp only [List.mem_append, List.mem_cons, List.not_mem_nil, or_false] at hmem ⊢
      exact hmem.imp id .inl

theorem Counts.length_le (h : s.Counts inputs) : s.order.length + s.ready.length ≤ n := by
  simpa using h.nodup.length_le_card

theorem Counts.drain (h : s.Counts inputs) (k : ℕ) : (s.drain (consumers inputs) k).Counts inputs := by
  induction k generalizing s with
  | zero => exact h
  | succ k ih => exact ih h.step

theorem drain_of_ready_eq_nil (hready : s.ready = []) (consumers : Vector (List (Fin n)) n) (k : ℕ) :
    s.drain consumers k = s := by
  induction k with
  | zero => rfl
  | succ k ih => rw [Search.drain, Search.step, hready, ih]

theorem Counts.length_drain (h : s.Counts inputs) (k : ℕ) :
    (s.drain (consumers inputs) k).ready = [] ∨ (s.drain (consumers inputs) k).order.length = s.order.length + k := by
  induction k generalizing s with
  | zero => exact .inr rfl
  | succ k ih =>
    cases hready : s.ready with
    | nil =>
      left
      rwa [drain_of_ready_eq_nil hready]
    | cons i rest =>
      refine (ih h.step).imp id fun hlength ↦ ?_
      rw [Search.drain, hlength, (h.step_eq hready).1, List.length_append, List.length_singleton]
      omega

theorem ready_drain_start : ((start inputs).drain (consumers inputs) n).ready = [] := by
  have hle := ((counts_start inputs).drain n).length_le
  rcases (counts_start inputs).length_drain n with hready | hlength
  · exact hready
  · rw [show (start inputs).order.length = 0 from rfl] at hlength
    exact List.length_eq_zero_iff.mp (by omega)

end Search

open Search (counts_start ready_drain_start)

def taken (inputs : Fin n → List (Fin n)) : List (Fin n) := ((Search.start inputs).drain (consumers inputs) n).order

theorem taken_spec (inputs : Fin n → List (Fin n)) : (taken inputs).Nodup ∧ InOrder inputs (taken inputs) ∧
    ∀ i, i ∈ taken inputs ↔ ∀ j ∈ inputs i, j ∈ taken inputs := by
  have h := (counts_start inputs).drain n
  have hnodup := h.nodup
  have hin := h.inOrder
  have hmem := h.mem_iff
  rw [ready_drain_start, List.append_nil] at hnodup hin hmem
  exact ⟨hnodup, hin, hmem⟩

theorem mem_taken_of_acyclic (h : Acyclic fun i j ↦ j ∈ inputs i) (i : Fin n) : i ∈ taken inputs := by
  induction i using h.wellFounded.induction with
  | _ i ih => exact ((taken_spec inputs).2.2 i).mpr fun j hj ↦ ih j (.single hj)

theorem topologicalOrder_spec {order : List (Fin n)} (h : topologicalOrder inputs = some order) :
    order.Perm (List.finRange n) ∧ InOrder inputs order := by
  obtain ⟨hlen, rfl⟩ : (taken inputs).length = n ∧ taken inputs = order := by
    rwa [topologicalOrder, Option.ite_none_right_eq_some, Option.some.injEq] at h
  obtain ⟨hnodup, hin, -⟩ := taken_spec inputs
  refine ⟨(hnodup.subperm fun i _ ↦ List.mem_finRange i).perm_of_length_le ?_, hin⟩
  rw [List.length_finRange, hlen]

/-- An order is found exactly for graphs without a cycle. -/
theorem topologicalOrder_isSome_iff :
    (∃ order, topologicalOrder inputs = some order) ↔ Acyclic fun i j ↦ j ∈ inputs i := by
  constructor
  · rintro ⟨order, h⟩
    obtain ⟨hp, ho⟩ := topologicalOrder_spec h
    exact ho.acyclic hp
  · intro h
    have hperm : (taken inputs).Perm (List.finRange n) :=
      (List.perm_ext_iff_of_nodup (taken_spec inputs).1 (List.nodup_finRange n)).mpr fun i ↦
        iff_of_true (mem_taken_of_acyclic h i) (List.mem_finRange i)
    refine ⟨taken inputs, if_pos ?_⟩
    change (taken inputs).length = n
    rw [hperm.length_eq, List.length_finRange]

end FixedNet

import FixedNet.Proofs.Network.Order

namespace FixedNet

variable {n : ℕ} {α : Type} {inputs : Fin n → List (Fin n)} {finds : Vector α n → Fin n → α → Prop}

/-- From the values so far a value is found for the next node. -/
inductive Passes (finds : Vector α n → Fin n → α → Prop) : List (Fin n) → Vector α n → Vector α n → Prop
  | nil (v : Vector α n) : Passes finds [] v v
  | cons {i : Fin n} {order : List (Fin n)} {v w : Vector α n} {a : α} (head : finds v i a)
      (tail : Passes finds order (v.set i a i.isLt) w) : Passes finds (i :: order) v w

/-- Only the values of its inputs matter for a node. -/
def ReadsInputs (inputs : Fin n → List (Fin n)) (finds : Vector α n → Fin n → α → Prop) : Prop :=
  ∀ v w i a, (∀ j ∈ inputs i, w.get j = v.get j) → finds v i a → finds w i a

theorem Passes.get_of_notMem {order : List (Fin n)} {v w : Vector α n} (h : Passes finds order v w) {i : Fin n}
    (hi : i ∉ order) : w.get i = v.get i := by
  induction h with
  | nil => rfl
  | cons _ _ ih =>
    obtain ⟨hne, hi⟩ := not_or.mp (mt List.mem_cons.mpr hi)
    rw [ih hi, get_set_ne _ hne]

theorem Passes.solves (hreads : ReadsInputs inputs finds) {order : List (Fin n)} {v w : Vector α n}
    (h : Passes finds order v w) (hn : order.Nodup) (ho : order.Pairwise fun i j ↦ j ∉ inputs i)
    (hself : ∀ i ∈ order, i ∉ inputs i) : ∀ i ∈ order, finds w i (w.get i) := by
  induction h with
  | nil => simp
  | @cons i order v w a hfinds hrest ih =>
    obtain ⟨hi, hn⟩ := List.nodup_cons.mp hn
    obtain ⟨hlater, ho⟩ := List.pairwise_cons.mp ho
    intro j hj
    rcases List.mem_cons.mp hj with rfl | hj
    · rw [hrest.get_of_notMem hi, get_set_self]
      refine hreads v w j a (fun k hk ↦ ?_) hfinds
      rw [hrest.get_of_notMem fun hmem ↦ hlater k hmem hk, get_set_ne]
      rintro rfl
      exact hself k List.mem_cons_self hk
    · exact ih hn ho (fun k hk ↦ hself k (List.mem_cons_of_mem i hk)) j hj

theorem Passes.of_solves (hreads : ReadsInputs inputs finds) {order : List (Fin n)} {v w : Vector α n}
    (hrest : ∀ i, i ∉ order → w.get i = v.get i) (ho : order.Pairwise fun i j ↦ j ∉ inputs i)
    (hself : ∀ i ∈ order, i ∉ inputs i) (h : ∀ i ∈ order, finds w i (w.get i)) : Passes finds order v w := by
  induction order generalizing v with
  | nil =>
    obtain rfl : w = v := Vector.ext fun k hk ↦ hrest ⟨k, hk⟩ List.not_mem_nil
    exact .nil w
  | cons i order ih =>
    obtain ⟨hlater, ho⟩ := List.pairwise_cons.mp ho
    refine .cons (hreads w v i _ (fun j hj ↦ (hrest j ?_).symm) (h i List.mem_cons_self)) (ih (fun j hj ↦ ?_) ho
      (fun j hj ↦ hself j (List.mem_cons_of_mem i hj)) fun j hj ↦ h j (List.mem_cons_of_mem i hj))
    · intro hmem
      rcases List.mem_cons.mp hmem with rfl | hmem
      · exact hself j List.mem_cons_self hj
      · exact hlater j hmem hj
    · by_cases hij : j = i
      · rw [hij, get_set_self]
      · rw [get_set_ne _ hij]
        exact hrest j fun hmem ↦ (List.mem_cons.mp hmem).elim hij hj

/-- A pass through all nodes, each after its inputs, comes to the solutions and to nothing else. -/
theorem passes_iff (hreads : ReadsInputs inputs finds) {order : List (Fin n)} (hperm : order.Perm (List.finRange n))
    (hin : InOrder inputs order) {v w : Vector α n} : Passes finds order v w ↔ ∀ i, finds w i (w.get i) := by
  have hn := hperm.nodup_iff.mpr (List.nodup_finRange n)
  have hall (i : Fin n) : i ∈ order := hperm.mem_iff.mpr (List.mem_finRange i)
  obtain ⟨ho, hself⟩ := hin.notMem_of_mem hn
  constructor
  · exact fun h i ↦ h.solves hreads hn ho hself i (hall i)
  · exact fun h ↦ .of_solves hreads (fun i hi ↦ absurd (hall i) hi) ho hself fun i _ ↦ h i

end FixedNet

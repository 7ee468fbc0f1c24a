import Mathlib
import FixedNet.Network.Order

namespace FixedNet

open Relation

variable {n : ℕ} {inputs : Fin n → List (Fin n)}

theorem get_set_self {α : Type} (v : Vector α n) (i : Fin n) (a : α) : (v.set i a i.isLt).get i = a :=
  Vector.getElem_set_self i.isLt

theorem get_set_ne {α : Type} (v : Vector α n) {i j : Fin n} (h : j ≠ i) (a : α) : (v.set i a i.isLt).get j = v.get j :=
  Vector.getElem_set_ne i.isLt j.isLt fun heq ↦ h (Fin.ext heq.symm)

/-- Every node of the list comes after the nodes it reads. -/
def InOrder (inputs : Fin n → List (Fin n)) (order : List (Fin n)) : Prop :=
  ∀ before i after, order = before ++ i :: after → ∀ j ∈ inputs i, j ∈ before

/-- No node reads itself, directly or through others. -/
def Acyclic {α : Type} (reads : α → α → Prop) : Prop := ∀ a, ¬ TransGen reads a a

theorem InOrder.append {order new : List (Fin n)} (h : InOrder inputs order)
    (hnew : ∀ i ∈ new, ∀ j ∈ inputs i, j ∈ order) : InOrder inputs (order ++ new) := by
  intro before i after heq j hj
  rcases List.append_eq_append_iff.mp heq with ⟨rest, rfl, hrest⟩ | ⟨rest, hold, hrest⟩
  · have hi : i ∈ new := by rw [hrest]; simp
    exact List.mem_append_left rest (hnew i hi j hj)
  · cases rest with
    | nil =>
      rw [List.append_nil] at hold
      have hi : i ∈ new := by rw [← List.nil_append new, ← hrest]; simp
      exact hold ▸ hnew i hi j hj
    | cons k rest =>
      obtain ⟨rfl, -⟩ := List.cons.inj hrest
      exact h before i rest hold j hj

theorem InOrder.idxOf_lt {order : List (Fin n)} (h : InOrder inputs order) (hn : order.Nodup) {i j : Fin n}
    (hi : i ∈ order) (hj : j ∈ inputs i) : j ∈ order ∧ order.idxOf j < order.idxOf i := by
  obtain ⟨before, after, rfl⟩ := List.append_of_mem hi
  have hb := h before i after rfl j hj
  have hni : i ∉ before := fun hib ↦ (List.nodup_append.mp hn).2.2 i hib i List.mem_cons_self rfl
  refine ⟨List.mem_append_left _ hb, ?_⟩
  rw [List.idxOf_append_of_mem hb, List.idxOf_append_of_notMem hni, List.idxOf_cons_self, Nat.add_zero]
  exact List.idxOf_lt_length_of_mem hb

theorem InOrder.notMem_of_mem {order : List (Fin n)} (h : InOrder inputs order) (hn : order.Nodup) :
    order.Pairwise (fun i j ↦ j ∉ inputs i) ∧ ∀ i ∈ order, i ∉ inputs i := by
  constructor
  · rw [List.pairwise_iff_getElem]
    intro k l hk hl hkl hmem
    have hlt := (h.idxOf_lt hn (List.getElem_mem hk) hmem).2
    rw [hn.idxOf_getElem, hn.idxOf_getElem] at hlt
    omega
  · exact fun i hi hmem ↦ (h.idxOf_lt hn hi hmem).2.false

theorem Acyclic.wellFounded {reads : Fin n → Fin n → Prop} (h : Acyclic reads) :
    WellFounded (Function.swap (TransGen reads)) :=
  have : Std.Irrefl (Function.swap (TransGen reads)) := ⟨h⟩
  Finite.wellFounded_of_trans_of_irrefl _

theorem InOrder.acyclic {order : List (Fin n)} (h : InOrder inputs order) (hp : order.Perm (List.finRange n)) :
    Acyclic fun i j ↦ j ∈ inputs i := by
  have hlt {i j : Fin n} (hij : TransGen (fun i j ↦ j ∈ inputs i) i j) : order.idxOf j < order.idxOf i := by
    have hstep {i j : Fin n} (hj : j ∈ inputs i) : order.idxOf j < order.idxOf i :=
      (h.idxOf_lt (hp.nodup_iff.mpr (List.nodup_finRange n)) (hp.mem_iff.mpr (List.mem_finRange i)) hj).2
    induction hij with
    | single hj => exact hstep hj
    | tail _ hj ih => exact (hstep hj).trans ih
  exact fun i hi ↦ (hlt hi).false

end FixedNet

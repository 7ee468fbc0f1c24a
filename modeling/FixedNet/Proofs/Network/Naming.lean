import FixedNet.Network.Graph
import FixedNet.Proofs.Network.Fits
import FixedNet.Proofs.Network.Search

namespace FixedNet

open Relation

theorem firstRepeated_eq_none_iff {names : List String} : firstRepeated names = none ↔ names.Nodup := by
  have h (seen : List String) : firstRepeated.go seen names = none ↔ names.Nodup ∧ ∀ s ∈ names, s ∉ seen := by
    induction names generalizing seen with
    | nil => simp [firstRepeated.go]
    | cons s names ih =>
      rw [firstRepeated.go]
      by_cases hs : s ∈ seen
      · simp [hs]
      · rw [if_neg (by simpa using hs), ih, List.nodup_cons, List.forall_mem_cons]
        constructor
        · rintro ⟨hn, hseen⟩
          refine ⟨⟨fun hmem ↦ hseen s hmem List.mem_cons_self, hn⟩, hs, fun x hx hxs ↦ ?_⟩
          exact hseen x hx (List.mem_cons_of_mem s hxs)
        · rintro ⟨⟨hmem, hn⟩, -, hseen⟩
          refine ⟨hn, fun x hx hxs ↦ ?_⟩
          rcases List.mem_cons.mp hxs with rfl | hxs
          · exact hmem hx
          · exact hseen x hx hxs
  simpa [firstRepeated] using h []

namespace Description

variable {d : Description}

def Reads (d : Description) (reader source : String) : Prop := ∃ layer ∈ d, layer.name = reader ∧ source ∈ layer.inputs

def NamesUnique (d : Description) : Prop := (d.map LayerDescription.name).Nodup

def InputsKnown (d : Description) : Prop := ∀ layer ∈ d, ∀ name ∈ layer.inputs, ∃ source ∈ d, source.name = name

theorem NamesUnique.eq_of_name_eq (h : d.NamesUnique) {i j : Fin d.length}
    (heq : (d.get i).name = (d.get j).name) : i = j := by
  have hi : (d.map LayerDescription.name)[i.val]? = some (d.get i).name := by simp
  have hj : (d.map LayerDescription.name)[j.val]? = some (d.get j).name := by simp
  refine Fin.ext ((List.getElem?_inj (by simp) h).mp ?_)
  rw [hi, hj, heq]

theorem exists_index {layer : LayerDescription} (h : layer ∈ d) : ∃ i : Fin d.length, d.get i = layer := by
  obtain ⟨i, hi, rfl⟩ := List.getElem_of_mem h
  exact ⟨⟨i, hi⟩, rfl⟩

theorem index_mem (i : Fin d.length) : d.get i ∈ d := List.getElem_mem i.isLt

theorem indexOf?_eq_none_iff {name : String} : d.indexOf? name = none ↔ ∀ layer ∈ d, layer.name ≠ name := by
  simp only [indexOf?, List.find?_eq_none, List.mem_finRange, true_implies, beq_iff_eq]
  constructor
  · intro h layer hl
    obtain ⟨i, rfl⟩ := exists_index hl
    exact h i
  · exact fun h i ↦ h (d.get i) (index_mem i)

theorem NamesUnique.indexOf?_eq_some_iff (h : d.NamesUnique) {name : String} {i : Fin d.length} :
    d.indexOf? name = some i ↔ (d.get i).name = name := by
  have hname {j : Fin d.length} (hj : d.indexOf? name = some j) : (d.get j).name = name := by
    simpa using List.find?_some hj
  refine ⟨hname, fun hi ↦ ?_⟩
  cases hj : d.indexOf? name with
  | none => exact absurd hi (indexOf?_eq_none_iff.mp hj _ (index_mem i))
  | some j => rw [h.eq_of_name_eq ((hname hj).trans hi.symm)]

theorem unknownInput?_eq_none_iff : d.unknownInput? = none ↔ d.InputsKnown := by
  simp only [unknownInput?, List.findSome?_eq_none_iff, Option.map_eq_none_iff, List.find?_eq_none,
    Option.isNone_iff_eq_none, indexOf?_eq_none_iff, InputsKnown, not_forall, not_not, exists_prop]

theorem NamesUnique.mem_edges_iff (h : d.NamesUnique) {i j : Fin d.length} :
    j ∈ d.edges i ↔ (d.get j).name ∈ (d.get i).inputs := by
  simp only [edges, List.mem_filterMap, h.indexOf?_eq_some_iff]
  exact ⟨fun ⟨_, hx, heq⟩ ↦ heq ▸ hx, fun hx ↦ ⟨_, hx, rfl⟩⟩

/-- The indices of the inputs have the names of the inputs, one by one. -/
theorem map_name_edges (hn : d.NamesUnique) (hk : d.InputsKnown) (i : Fin d.length) :
    (d.edges i).map (fun j ↦ (d.get j).name) = (d.get i).inputs := by
  have hmap (names : List String) (hnames : ∀ name ∈ names, ∃ source ∈ d, source.name = name) :
      (names.filterMap d.indexOf?).map (fun j ↦ (d.get j).name) = names := by
    induction names with
    | nil => rfl
    | cons name names ih =>
      obtain ⟨source, hs, rfl⟩ := hnames name List.mem_cons_self
      obtain ⟨j, rfl⟩ := exists_index hs
      rw [List.filterMap_cons_some (hn.indexOf?_eq_some_iff.mpr rfl), List.map_cons,
        ih fun x hx ↦ hnames x (List.mem_cons_of_mem _ hx)]
  exact hmap _ (hk (d.get i) (index_mem i))

theorem only_eq_some_iff {α : Type} {xs : List α} {a : α} : only xs = some a ↔ xs = [a] := by
  unfold only
  split <;> simp_all

/-- A filtered range has one element if one index passes the filter. -/
theorem only_filter_eq_some_iff {n : ℕ} {p : Fin n → Bool} {i : Fin n} :
    only ((List.finRange n).filter p) = some i ↔ p i ∧ ∀ j, p j → j = i := by
  rw [only_eq_some_iff]
  constructor
  · intro h
    have hmem (j : Fin n) : p j = true ↔ j = i := by
      have hj : j ∈ (List.finRange n).filter p ↔ j ∈ [i] := by rw [h]
      rwa [List.mem_filter, and_iff_right (List.mem_finRange j), List.mem_singleton] at hj
    exact ⟨(hmem i).mpr rfl, fun j ↦ (hmem j).mp⟩
  · rintro ⟨hi, huniq⟩
    have hperm : ((List.finRange n).filter p).Perm [i] := by
      refine (List.perm_ext_iff_of_nodup ((List.nodup_finRange n).filter p) (List.nodup_singleton i)).mpr fun j ↦ ?_
      rw [List.mem_filter, and_iff_right (List.mem_finRange j), List.mem_singleton]
      exact ⟨huniq j, fun hj ↦ hj ▸ hi⟩
    exact List.perm_singleton.mp hperm

theorem NamesUnique.existsUnique_index_iff (h : d.NamesUnique) {p : LayerDescription → Prop} :
    (∃! i : Fin d.length, p (d.get i)) ↔ ∃! layer, layer ∈ d ∧ p layer := by
  constructor
  · rintro ⟨i, hi, huniq⟩
    refine ⟨d.get i, ⟨index_mem i, hi⟩, ?_⟩
    rintro layer ⟨hl, hp⟩
    obtain ⟨j, rfl⟩ := exists_index hl
    rw [huniq j hp]
  · rintro ⟨layer, ⟨hl, hp⟩, huniq⟩
    obtain ⟨i, rfl⟩ := exists_index hl
    exact ⟨i, hp, fun j hj ↦ h.eq_of_name_eq (congrArg _ (huniq (d.get j) ⟨index_mem j, hj⟩))⟩

theorem exists_only_inputLayers_iff (h : d.NamesUnique) :
    (∃ i, only d.inputLayers = some i) ↔ ∃! layer, layer ∈ d ∧ layer.kind.isInput = true := by
  rw [← h.existsUnique_index_iff]
  simp only [inputLayers, only_filter_eq_some_iff, ExistsUnique]
  rfl

theorem isSink_iff {i : Fin d.length} : decide ((consumerCounts d.edges).get i = 0) = true ↔ ∀ j, i ∉ d.edges j :=
  decide_eq_true_iff.trans get_consumerCounts_eq_zero_iff

theorem NamesUnique.notMem_edges_iff (h : d.NamesUnique) {i : Fin d.length} :
    (∀ j, i ∉ d.edges j) ↔ ∀ reader ∈ d, (d.get i).name ∉ reader.inputs := by
  simp only [h.mem_edges_iff]
  constructor
  · intro hi reader hr
    obtain ⟨j, rfl⟩ := exists_index hr
    exact hi j
  · exact fun hi j ↦ hi (d.get j) (index_mem j)

theorem exists_only_sinks_iff (h : d.NamesUnique) :
    (∃ i, only d.sinks = some i) ↔ ∃! layer, layer ∈ d ∧ ∀ reader ∈ d, layer.name ∉ reader.inputs := by
  rw [← h.existsUnique_index_iff (p := fun layer ↦ ∀ reader ∈ d, layer.name ∉ reader.inputs)]
  simp only [sinks, only_filter_eq_some_iff, isSink_iff, h.notMem_edges_iff, ExistsUnique]

theorem NamesUnique.transGen_reads (h : d.NamesUnique) {i j : Fin d.length}
    (hij : TransGen (fun i j ↦ j ∈ d.edges i) i j) : TransGen d.Reads (d.get i).name (d.get j).name :=
  hij.lift (fun i : Fin d.length ↦ (d.get i).name) fun i _ hj ↦ ⟨d.get i, index_mem i, rfl, h.mem_edges_iff.mp hj⟩

theorem transGen_edges (hn : d.NamesUnique) (hk : d.InputsKnown) {a b : String} (hab : TransGen d.Reads a b) :
    ∃ i j : Fin d.length, (d.get i).name = a ∧ (d.get j).name = b ∧ TransGen (fun i j ↦ j ∈ d.edges i) i j := by
  have hstep {a b : String} (h : d.Reads a b) :
      ∃ i j : Fin d.length, (d.get i).name = a ∧ (d.get j).name = b ∧ j ∈ d.edges i := by
    obtain ⟨layer, hl, rfl, hb⟩ := h
    obtain ⟨source, hs, rfl⟩ := hk layer hl b hb
    obtain ⟨i, rfl⟩ := exists_index hl
    obtain ⟨j, rfl⟩ := exists_index hs
    exact ⟨i, j, rfl, rfl, hn.mem_edges_iff.mpr hb⟩
  induction hab with
  | single h =>
    obtain ⟨i, j, hi, hj, hij⟩ := hstep h
    exact ⟨i, j, hi, hj, .single hij⟩
  | tail _ h ih =>
    obtain ⟨i, j, hi, rfl, hij⟩ := ih
    obtain ⟨j', k, hj', hk', hjk⟩ := hstep h
    exact ⟨i, k, hi, hk', hij.tail (hn.eq_of_name_eq hj' ▸ hjk)⟩

theorem acyclic_edges_iff (hn : d.NamesUnique) (hk : d.InputsKnown) :
    Acyclic (fun i j ↦ j ∈ d.edges i) ↔ Acyclic d.Reads := by
  constructor
  · intro h name hname
    obtain ⟨i, j, hi, hj, hij⟩ := transGen_edges hn hk hname
    obtain rfl := hn.eq_of_name_eq (hi.trans hj.symm)
    exact h i hij
  · exact fun h i hi ↦ h (d.get i).name (hn.transGen_reads hi)

end Description

end FixedNet

import FixedNet.Proofs.Network.Matching

namespace FixedNet

open Relation

namespace Description

variable {d d' : Description}

theorem reads_of_perm (h : d.Perm d') : d'.Reads = d.Reads := by
  funext reader source
  simp only [Reads, h.mem_iff]

theorem WellFormed.of_perm {count : ℕ → ℕ} (h : d.Perm d') (hd : d.WellFormed count) : d'.WellFormed count where
  nonempty := by
    rintro rfl
    exact hd.nonempty h.eq_nil
  names_unique := (h.map _).nodup_iff.mp hd.names_unique
  inputs_known := by simpa only [InputsKnown, h.mem_iff] using hd.inputs_known
  one_input := by simpa only [h.mem_iff] using hd.one_input
  acyclic := reads_of_perm h ▸ hd.acyclic
  one_output := by simpa only [h.mem_iff] using hd.one_output
  fits := by simpa only [h.mem_iff] using hd.fits

end Description

def Layer.renamed {n n' : ℕ} (layer : Layer n) (σ : Fin n → Fin n') : Layer n' :=
  ⟨layer.name, layer.op, layer.inputs.map σ, layer.features⟩

theorem Layer.eq_renamed {n n' : ℕ} {layer : Layer n} {layer' : Layer n'} {σ : Fin n → Fin n'}
    (hname : layer'.name = layer.name) (hop : layer'.op = layer.op) (hinputs : layer'.inputs = layer.inputs.map σ)
    (hfeatures : layer'.features = layer.features) : layer' = layer.renamed σ := by
  rw [renamed, ← hname, ← hop, ← hinputs, ← hfeatures]

namespace Graph

variable {g g' : Graph} {d d' : Description}

/-- Two graphs of the same layers under different numbers. -/
structure Renaming (g g' : Graph) where
  index : Fin g.size ≃ Fin g'.size
  layer_eq : ∀ i, g'.layer (index i) = (g.layer i).renamed index
  input_eq : g'.input = index g.input
  output_eq : g'.output = index g.output

theorem Describes.exists_holds (hd : g.Describes d) {layer : LayerDescription} (h : layer ∈ d) :
    ∃ i, g.Holds i layer := by
  obtain ⟨k, hk, rfl⟩ := List.getElem_of_mem h
  exact ⟨⟨k, hd.size_eq ▸ hk⟩, hd.holds_of_getElem? (List.getElem?_eq_getElem hk)⟩

/-- The numbers that the layers of one graph have in another one with the same layers. -/
theorem Describes.exists_index (hd : g.Describes d) (hd' : g'.Describes d') (hperm : d.Perm d')
    (hname : Function.Injective fun i ↦ (g.layer i).name) : ∃ σ : Fin g.size ≃ Fin g'.size,
      ∀ i, ∃ layer, g.Holds i layer ∧ g'.Holds (σ i) layer := by
  have hboth (i : Fin g.size) : ∃ j layer, g.Holds i layer ∧ g'.Holds j layer := by
    obtain ⟨layer, hlayer, hholds⟩ := hd.holds i
    obtain ⟨j, hj⟩ := hd'.exists_holds (hperm.mem_iff.mp (List.mem_of_getElem? hlayer))
    exact ⟨j, layer, hholds, hj⟩
  choose f hf using hboth
  have hinjective : Function.Injective f := by
    intro i k hik
    obtain ⟨layer, hi, hfi⟩ := hf i
    obtain ⟨layer', hk, hfk⟩ := hf k
    refine hname ?_
    change (g.layer i).name = (g.layer k).name
    rw [hi.name_eq, hk.name_eq, ← hfi.name_eq, ← hfk.name_eq, hik]
  have hcard : Fintype.card (Fin g.size) = Fintype.card (Fin g'.size) := by
    rw [Fintype.card_fin, Fintype.card_fin, hd.size_eq, hd'.size_eq, hperm.length_eq]
  exact ⟨.ofBijective f ((Fintype.bijective_iff_injective_and_card f).mpr ⟨hinjective, hcard⟩), hf⟩

theorem exists_renaming (hg : Graph.ofDescription d = .ok g) (hg' : Graph.ofDescription d' = .ok g')
    (hperm : d.Perm d') : Nonempty (g.Renaming g') := by
  obtain ⟨σ, hσ⟩ := (describes_of_isOk hg).exists_index (describes_of_isOk hg') hperm (name_injective hg)
  have hsame (layer : LayerDescription) : layer.Alike (fun _ op op' ↦ op' = op) layer :=
    ⟨rfl, rfl, rfl, fun widths op width hbuild ↦ ⟨op, hbuild, rfl⟩⟩
  have hmatch (i : Fin g.size) : ∃ layer layer', layer.Alike (fun _ op op' ↦ op' = op) layer' ∧
      g.Holds i layer ∧ g'.Holds (σ i) layer' := by
    obtain ⟨layer, hi, hi'⟩ := hσ i
    exact ⟨layer, layer, hsame layer, hi, hi'⟩
  obtain ⟨m⟩ := exists_matching_of_index hg hg' σ hmatch
  exact ⟨m.index, fun i ↦ Layer.eq_renamed (m.name_eq i) (m.related i) (m.inputs_eq i) (m.features_eq i),
    m.input_eq, m.output_eq⟩

namespace Renaming

variable {α : Type} (r : g.Renaming g')

def transport (v : Vector α g.size) : Vector α g'.size := Vector.ofFn fun j ↦ v.get (r.index.symm j)

@[simp]
theorem get_transport (v : Vector α g.size) (i : Fin g.size) : (r.transport v).get (r.index i) = v.get i := by
  rw [transport, Vector.get_eq_getElem, Vector.getElem_ofFn]
  exact congrArg v.get (r.index.symm_apply_apply i)

theorem forall_iff {P : Fin g'.size → Prop} : (∀ j, P j) ↔ ∀ i, P (r.index i) := r.index.surjective.forall

end Renaming

end Graph

end FixedNet

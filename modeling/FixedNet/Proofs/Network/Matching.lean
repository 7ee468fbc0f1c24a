import FixedNet.Proofs.Network.Shapes

namespace FixedNet

/-- Layers under one name that read the same; what the first one is built into, so is the second, operations aside. -/
structure LayerDescription.Alike (R : String → Op → Op → Prop) (layer layer' : LayerDescription) : Prop where
  name_eq : layer'.name = layer.name
  inputs_eq : layer'.inputs = layer.inputs
  isInput_eq : layer'.kind.isInput = layer.kind.isInput
  build : ∀ widths op width, layer.kind.build widths = .ok (op, width) →
    ∃ op', layer'.kind.build widths = .ok (op', width) ∧ R layer.name op op'

namespace Description

variable {R : String → Op → Op → Prop} {d d' : Description}

theorem map_eq_of_alike {α : Type} (h : List.Forall₂ (LayerDescription.Alike R) d d') {f : LayerDescription → α}
    (hf : ∀ layer layer', layer.Alike R layer' → f layer' = f layer) : d'.map f = d.map f := by
  induction h with
  | nil => rfl
  | cons head _ ih => rw [List.map_cons, List.map_cons, hf _ _ head, ih]

theorem exists_of_mem_alike (h : List.Forall₂ (LayerDescription.Alike R) d d') {layer : LayerDescription}
    (hl : layer ∈ d) : ∃ layer' ∈ d', layer.Alike R layer' := exists_of_mem_forall₂ h.flip hl

theorem reads_of_alike (h : List.Forall₂ (LayerDescription.Alike R) d d') : d'.Reads = d.Reads := by
  funext reader source
  refine propext ⟨?_, ?_⟩
  · rintro ⟨layer', hl', hname, hmem⟩
    obtain ⟨layer, hl, halike⟩ := exists_of_mem_forall₂ h hl'
    exact ⟨layer, hl, halike.name_eq ▸ hname, halike.inputs_eq ▸ hmem⟩
  · rintro ⟨layer, hl, hname, hmem⟩
    obtain ⟨layer', hl', halike⟩ := exists_of_mem_alike h hl
    exact ⟨layer', hl', halike.name_eq ▸ hname, halike.inputs_eq ▸ hmem⟩

theorem existsUnique_of_alike (h : List.Forall₂ (LayerDescription.Alike R) d d') (hn : d'.NamesUnique)
    {P P' : LayerDescription → Prop} (hP : ∀ layer layer', layer.Alike R layer' → (P layer ↔ P' layer'))
    (hd : ∃! layer, layer ∈ d ∧ P layer) : ∃! layer', layer' ∈ d' ∧ P' layer' := by
  obtain ⟨layer, ⟨hl, hp⟩, hunique⟩ := hd
  obtain ⟨layer', hl', halike⟩ := exists_of_mem_alike h hl
  refine ⟨layer', ⟨hl', (hP _ _ halike).mp hp⟩, ?_⟩
  rintro other' ⟨ho', hp'⟩
  obtain ⟨other, ho, halike'⟩ := exists_of_mem_forall₂ h ho'
  obtain rfl := hunique other ⟨ho, (hP _ _ halike').mpr hp'⟩
  exact List.inj_on_of_nodup_map hn ho' hl' (halike'.name_eq.trans halike.name_eq.symm)

theorem forall_inputs_iff_of_alike (h : List.Forall₂ (LayerDescription.Alike R) d d') (P : List String → Prop) :
    (∀ reader ∈ d, P reader.inputs) ↔ ∀ reader' ∈ d', P reader'.inputs := by
  constructor
  · intro hd layer' hl'
    obtain ⟨layer, hl, halike⟩ := exists_of_mem_forall₂ h hl'
    exact halike.inputs_eq ▸ hd layer hl
  · intro hd layer hl
    obtain ⟨layer', hl', halike⟩ := exists_of_mem_alike h hl
    exact halike.inputs_eq ▸ hd layer' hl'

theorem WellFormed.of_alike (h : List.Forall₂ (LayerDescription.Alike R) d d') (hd : d.WellFormed word64) :
    d'.WellFormed word64 := by
  have hn : d'.NamesUnique := by
    rw [NamesUnique, map_eq_of_alike h fun _ _ halike ↦ halike.name_eq]
    exact hd.names_unique
  refine ⟨?_, hn, ?_, ?_, reads_of_alike h ▸ hd.acyclic, ?_, ?_⟩
  · rintro rfl
    cases h
    exact hd.nonempty rfl
  · refine (forall_inputs_iff_of_alike h fun inputs ↦ ∀ name ∈ inputs, ∃ source ∈ d', source.name = name).mp ?_
    intro layer hl name hname
    obtain ⟨source, hs, rfl⟩ := hd.inputs_known layer hl name hname
    obtain ⟨source', hs', halike⟩ := exists_of_mem_alike h hs
    exact ⟨source', hs', halike.name_eq⟩
  · exact existsUnique_of_alike h hn (fun _ _ halike ↦ by rw [halike.isInput_eq]) hd.one_input
  · refine existsUnique_of_alike h hn (fun layer layer' halike ↦ ?_) hd.one_output
    rw [halike.name_eq]
    exact forall_inputs_iff_of_alike h fun inputs ↦ layer.name ∉ inputs
  · obtain ⟨width, hfits⟩ := hd.fits
    refine ⟨width, fun layer' hl' ↦ ?_⟩
    obtain ⟨layer, hl, halike⟩ := exists_of_mem_forall₂ h hl'
    obtain ⟨op, hbuild⟩ := LayerKind.build_isOk_iff.mpr (hfits layer hl)
    obtain ⟨op', hbuild', -⟩ := halike.build _ _ _ hbuild
    rw [halike.inputs_eq, halike.name_eq]
    exact LayerKind.build_eq_ok hbuild'

end Description

namespace Graph

variable {R : String → Op → Op → Prop} {g g' : Graph} {d d' : Description}

/-- Two graphs of layers that correspond, with related operations. -/
structure Matching (R : String → Op → Op → Prop) (g g' : Graph) where
  index : Fin g.size ≃ Fin g'.size
  name_eq : ∀ i, (g'.layer (index i)).name = (g.layer i).name
  inputs_eq : ∀ i, (g'.layer (index i)).inputs = (g.layer i).inputs.map index
  features_eq : ∀ i, (g'.layer (index i)).features = (g.layer i).features
  related : ∀ i, R (g.layer i).name (g.layer i).op (g'.layer (index i)).op
  input_eq : g'.input = index g.input
  output_eq : g'.output = index g.output

theorem Describes.acyclic (hd : g.Describes d) : Acyclic g.Reads := hd.in_order.acyclic hd.perm

theorem exists_matching_of_index (hg : Graph.ofDescription d = .ok g) (hg' : Graph.ofDescription d' = .ok g')
    (σ : Fin g.size ≃ Fin g'.size)
    (hσ : ∀ i, ∃ layer layer', layer.Alike R layer' ∧ g.Holds i layer ∧ g'.Holds (σ i) layer') :
    Nonempty (Matching R g g') := by
  have hd := describes_of_isOk hg
  have hd' := describes_of_isOk hg'
  have hname (i : Fin g.size) : (g'.layer (σ i)).name = (g.layer i).name := by
    obtain ⟨layer, layer', halike, hi, hi'⟩ := hσ i
    rw [hi.name_eq, hi'.name_eq, halike.name_eq]
  have hinputs (i : Fin g.size) : (g'.layer (σ i)).inputs = (g.layer i).inputs.map σ := by
    obtain ⟨layer, layer', halike, hi, hi'⟩ := hσ i
    refine List.map_injective_iff.mpr (name_injective hg') ?_
    rw [hi'.inputs_eq, halike.inputs_eq, ← hi.inputs_eq, List.map_map]
    exact List.map_congr_left fun j _ ↦ (hname j).symm
  -- From the inputs up, widths agree and with them what is built.
  have hbuilt (i : Fin g.size) : (g'.layer (σ i)).features = (g.layer i).features ∧
      R (g.layer i).name (g.layer i).op (g'.layer (σ i)).op := by
    induction i using hd.acyclic.wellFounded.induction with
    | _ i ih =>
      obtain ⟨layer, layer', halike, hi, hi'⟩ := hσ i
      have hwidths : (g'.layer (σ i)).inputs.map (fun j ↦ (g'.layer j).features) =
          (g.layer i).inputs.map fun j ↦ (g.layer j).features := by
        rw [hinputs, List.map_map]
        exact List.map_congr_left fun j hj ↦ (ih j (.single hj)).1
      obtain ⟨op', hbuild, hrelated⟩ := halike.build _ _ _ hi.build_eq
      have hsame := hi'.build_eq
      rw [hwidths, hbuild] at hsame
      obtain ⟨hop, hfeatures⟩ := Prod.mk.inj (Except.ok.inj hsame)
      exact ⟨hfeatures.symm, hi.name_eq ▸ hop ▸ hrelated⟩
  refine ⟨σ, hname, hinputs, fun i ↦ (hbuilt i).1, fun i ↦ (hbuilt i).2, ?_, ?_⟩
  · rw [eq_comm, ← hd'.input_iff, hinputs, (hd.input_iff _).mpr rfl, List.map_nil]
  · rw [eq_comm, ← hd'.output_iff]
    intro j hj
    obtain ⟨i, rfl⟩ := σ.surjective j
    rw [Reads, hinputs] at hj
    obtain ⟨k, hk, hout⟩ := List.mem_map.mp hj
    exact (hd.output_iff _).mpr rfl i (σ.injective hout ▸ hk)

theorem exists_matching (hg : Graph.ofDescription d = .ok g) (hg' : Graph.ofDescription d' = .ok g')
    (h : List.Forall₂ (LayerDescription.Alike R) d d') : Nonempty (Matching R g g') := by
  have hd := describes_of_isOk hg
  have hd' := describes_of_isOk hg'
  have hsize : g.size = g'.size := by rw [hd.size_eq, hd'.size_eq, h.length_eq]
  refine exists_matching_of_index hg hg' (finCongr hsize) fun i ↦ ?_
  obtain ⟨layer, hlayer, hi⟩ := hd.holds i
  obtain ⟨layer', hlayer', hi'⟩ := hd'.holds (finCongr hsize i)
  obtain ⟨hk, rfl⟩ := List.getElem?_eq_some_iff.mp hlayer
  obtain ⟨hk', rfl⟩ := List.getElem?_eq_some_iff.mp hlayer'
  exact ⟨_, _, h.get hk hk', hi, hi'⟩

namespace Matching

variable (m : Matching R g g')

theorem forall_iff {P : Fin g'.size → Prop} : (∀ j, P j) ↔ ∀ i, P (m.index i) := m.index.surjective.forall

/-- Where what is found at a layer has a counterpart that is found from counterparts of what the inputs have, there are
counterparts for all layers at once. -/
theorem exists_counterparts {α β : Type} (finds : Vector α g.size → Fin g.size → α → Prop)
    (finds' : Vector β g'.size → Fin g'.size → β → Prop) {rel : Fin g.size → α → β → Prop} (v : Vector α g.size)
    (hstep : ∀ i, finds v i (v.get i) → ∃ b, rel i (v.get i) b ∧
      ∀ w, (∀ j ∈ (g.layer i).inputs, rel j (v.get j) (w.get (m.index j))) → finds' w (m.index i) b)
    (h : ∀ i, finds v i (v.get i)) :
    ∃ w, (∀ i, rel i (v.get i) (w.get (m.index i))) ∧ ∀ j, finds' w j (w.get j) := by
  choose b hrel hfinds using fun i ↦ hstep i (h i)
  let w : Vector β g'.size := .ofFn fun j ↦ b (m.index.symm j)
  have hget (i : Fin g.size) : w.get (m.index i) = b i := by
    rw [Vector.get_eq_getElem, Vector.getElem_ofFn]
    exact congrArg b (m.index.symm_apply_apply i)
  refine ⟨w, fun i ↦ (hget i).symm ▸ hrel i, m.forall_iff.mpr fun i ↦ ?_⟩
  rw [hget]
  exact hfinds i w fun j _ ↦ (hget j).symm ▸ hrel j

end Matching

end Graph

end FixedNet

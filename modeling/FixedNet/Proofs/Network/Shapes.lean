import FixedNet.Proofs.Network.WellFormed

namespace FixedNet

/-- Widths of inputs and the width of its own that go with an operation, where sizes are held as `count` says. -/
inductive Op.Shaped (count : ℕ → ℕ) : Op → List ℕ → ℕ → Prop
  | input {width : ℕ} : Shaped count .input [] width
  | dense {inFeatures width : ℕ} {weights bias : List Float} {kernelQuantizer biasQuantizer : Option Quantizer}
      (hweights : weights.length = count (width * inFeatures)) (hbias : bias.length = width) :
      Shaped count (.dense inFeatures weights bias kernelQuantizer biasQuantizer) [inFeatures] width
  | batchNorm {gains shifts : List Float} {width : ℕ} (hgains : gains.length = width)
      (hshifts : shifts.length = width) : Shaped count (.batchNorm gains shifts) [width] width
  | activation {function : ActivationFunction} {width : ℕ} : Shaped count (.activation function) [width] width
  | softmax {width : ℕ} : Shaped count .softmax [width] width
  | add {widths : List ℕ} {width : ℕ} (several : 2 ≤ widths.length) (equal : ∀ w ∈ widths, w = width) :
      Shaped count .add widths width
  | concatenate {widths : List ℕ} (several : 2 ≤ widths.length) :
      Shaped count .concatenate widths (count widths.sum)

namespace LayerKind

theorem readActivation_eq_ok {text : String} {op : Op} (h : readActivation text = .ok op) :
    (∃ function, op = .activation function) ∨ op = .softmax := by
  unfold readActivation at h
  split at h
  · cases h
    exact .inl ⟨_, rfl⟩
  · cases h
    exact .inl ⟨_, rfl⟩
  · cases h
    exact .inr rfl
  · obtain ⟨q, -, h⟩ := bind_eq_ok_iff.mp h
    obtain ⟨u, -, h⟩ := bind_eq_ok_iff.mp h
    cases pure_eq_ok_iff.mp h
    exact .inl ⟨_, rfl⟩

theorem readActivation_shaped {text : String} {op : Op} (h : readActivation text = .ok op) (count : ℕ → ℕ) (width : ℕ) :
    op.Shaped count [width] width := by
  obtain ⟨function, rfl⟩ | rfl := readActivation_eq_ok h
  · exact .activation
  · exact .softmax

theorem shaped_of_build {kind : LayerKind} {widths : List ℕ} {op : Op} {width : ℕ} {count : ℕ → ℕ}
    (hcount : word64 (kind.volume widths) = count (kind.volume widths)) (h : kind.build widths = .ok (op, width)) :
    op.Shaped count widths width := by
  cases build_eq_ok_iff.mp h with
  | input => exact .input
  | dense _ hweights hbias => exact .dense (hweights.trans hcount) hbias
  | batchNorm hg hb hm hv hc =>
    have hlength := foldChannels_length (hg.trans hv.symm) (hb.trans hv.symm) (hm.trans hv.symm) hc
    refine .batchNorm ?_ ?_ <;> rw [List.length_map, hlength, hv]
  | activation hop => exact readActivation_shaped hop count width
  | softmax => exact .softmax
  | add several equal => exact .add several equal
  | concatenate several =>
    rw [show word64 widths.sum = count widths.sum from hcount]
    exact .concatenate several

theorem exists_of_readOptional {text : Option String} {q : Quantizer} (h : readOptional text = .ok (some q)) :
    ∃ text, Quantizer.read text = .ok q := by
  cases text with
  | none => cases h
  | some text =>
    obtain ⟨q', hq, h⟩ := map_eq_ok_iff.mp h
    cases h
    exact ⟨text, readQuantizer_eq_ok_iff.mp hq⟩

theorem quantizers_of_build {kind : LayerKind} {widths : List ℕ} {inFeatures width : ℕ} {weights bias : List Float}
    {kernelQuantizer biasQuantizer : Option Quantizer}
    (h : kind.build widths = .ok (.dense inFeatures weights bias kernelQuantizer biasQuantizer, width)) :
    (∀ q, kernelQuantizer = some q → ∃ text, Quantizer.read text = .ok q) ∧
      ∀ q, biasQuantizer = some q → ∃ text, Quantizer.read text = .ok q := by
  cases build_eq_ok_iff.mp h with
  | dense _ _ _ hq hq' =>
    refine ⟨?_, ?_⟩
    · rintro q rfl
      exact exists_of_readOptional hq
    · rintro q rfl
      exact exists_of_readOptional hq'
  | activation hop => obtain ⟨_, h⟩ | h := readActivation_eq_ok hop <;> cases h

end LayerKind

namespace Op.Shaped

variable {count : ℕ → ℕ} {op : Op} {widths : List ℕ} {width : ℕ}

theorem eq_nil_iff (h : op.Shaped count widths width) : widths = [] ↔ op = .input := by
  cases h with
  | input => simp
  | dense | batchNorm | activation | softmax => simp
  | add several | concatenate several =>
    refine iff_of_false ?_ (by simp)
    rintro rfl
    simp at several

theorem lengths_of_dense {inFeatures : ℕ} {weights bias : List Float} {kernelQuantizer biasQuantizer : Option Quantizer}
    (h : (Op.dense inFeatures weights bias kernelQuantizer biasQuantizer).Shaped count widths width) :
    weights.length = count (width * inFeatures) ∧ bias.length = width := by
  cases h with
  | dense hweights hbias => exact ⟨hweights, hbias⟩

theorem lengths_of_batchNorm {gains shifts : List Float} (h : (Op.batchNorm gains shifts).Shaped count widths width) :
    gains.length = width ∧ shifts.length = width := by
  cases h with
  | batchNorm hgains hshifts => exact ⟨hgains, hshifts⟩

end Op.Shaped

namespace Graph

/-- A graph whose layers have the widths that follow from those of their inputs, without a word to hold them, and that
are not empty. -/
structure Measured (g : Graph) : Prop where
  features_pos : ∀ i, 0 < (g.layer i).features
  shaped : ∀ i, (g.layer i).op.Shaped id ((g.layer i).inputs.map fun j ↦ (g.layer j).features) (g.layer i).features

variable {g : Graph} {d : Description}

theorem Describes.holds_of_getElem? (h : g.Describes d) {i : Fin g.size} {layer : LayerDescription}
    (hi : d[i.val]? = some layer) : g.Holds i layer := by
  obtain ⟨layer', hlayer, hl⟩ := h.holds i
  rw [hi] at hlayer
  cases hlayer
  exact hl

theorem Describes.shaped (h : g.Describes d) (i : Fin g.size) :
    (g.layer i).op.Shaped word64 ((g.layer i).inputs.map fun j ↦ (g.layer j).features) (g.layer i).features := by
  obtain ⟨layer, -, hl⟩ := h.holds i
  exact LayerKind.shaped_of_build rfl hl.build_eq

theorem Describes.features_eq_of_add (h : g.Describes d) {i j : Fin g.size} (hop : (g.layer i).op = .add)
    (hj : j ∈ (g.layer i).inputs) : (g.layer j).features = (g.layer i).features := by
  have hshaped := h.shaped i
  rw [hop] at hshaped
  cases hshaped with
  | add _ equal => exact equal _ (List.mem_map_of_mem hj)

theorem Describes.quantizers (h : g.Describes d) {i : Fin g.size} {inFeatures : ℕ} {weights bias : List Float}
    {kernelQuantizer biasQuantizer : Option Quantizer}
    (hop : (g.layer i).op = .dense inFeatures weights bias kernelQuantizer biasQuantizer) :
    (∀ q, kernelQuantizer = some q → ∃ text, Quantizer.read text = .ok q) ∧
      ∀ q, biasQuantizer = some q → ∃ text, Quantizer.read text = .ok q := by
  obtain ⟨layer, -, hl⟩ := h.holds i
  exact LayerKind.quantizers_of_build (hop ▸ hl.build_eq)

theorem volume_lt {width : String → ℕ} (hm : d.Measures width) (h : Graph.ofDescription d = .ok g) {i : Fin g.size}
    {layer : LayerDescription} (hi : d[i.val]? = some layer) (hl : g.Holds i layer) :
    layer.kind.volume ((g.layer i).inputs.map fun j ↦ (g.layer j).features) < 2 ^ 64 := by
  have hwidths : layer.inputs.map width = (g.layer i).inputs.map fun j ↦ (g.layer j).features := by
    rw [← hl.inputs_eq, List.map_map]
    exact List.map_congr_left fun j _ ↦ (features_eq hm h j).symm
  rw [← hwidths]
  exact hm.volume_lt layer (List.mem_of_getElem? hi)

theorem measured (h : Graph.ofDescription d = .ok g) (hs : d.Sized) : g.Measured := by
  obtain ⟨width, hm⟩ := hs
  refine ⟨features_pos hm h, fun i ↦ ?_⟩
  obtain ⟨layer, hi, hl⟩ := (describes_of_isOk h).holds i
  exact LayerKind.shaped_of_build (LayerKind.word64_of_lt (volume_lt hm h hi hl)) hl.build_eq

theorem Describes.op_eq_input_iff (h : g.Describes d) (i : Fin g.size) : (g.layer i).op = .input ↔ i = g.input := by
  rw [← h.input_iff, ← (h.shaped i).eq_nil_iff, List.map_eq_nil_iff]

theorem Describes.exists_order_eq (h : g.Describes d) : ∃ rest, g.order = g.input :: rest ∧ g.input ∉ rest := by
  have hnodup := h.perm.nodup_iff.mpr (List.nodup_finRange g.size)
  cases ho : g.order with
  | nil =>
    have hmem := h.perm.mem_iff.mpr (List.mem_finRange g.input)
    rw [ho] at hmem
    cases hmem
  | cons i rest =>
    have hi : i = g.input := by
      rw [← h.input_iff, List.eq_nil_iff_forall_not_mem]
      intro j hj
      exact absurd (h.in_order [] i rest ho j hj) List.not_mem_nil
    rw [ho, hi] at hnodup
    exact ⟨rest, by rw [hi], (List.nodup_cons.mp hnodup).1⟩

theorem name_injective (h : Graph.ofDescription d = .ok g) : Function.Injective fun i ↦ (g.layer i).name := by
  have hd := describes_of_isOk h
  have hn := (Description.wellFormed_of_isOk h).names_unique
  intro i j hij
  obtain ⟨layer, hi, hli⟩ := hd.holds i
  obtain ⟨layer', hj, hlj⟩ := hd.holds j
  have hname : layer.name = layer'.name := by rw [← hli.name_eq, ← hlj.name_eq]; exact hij
  refine Fin.ext ((List.getElem?_inj (by simpa using hd.size_eq ▸ i.isLt) hn).mp ?_)
  rw [List.getElem?_map, List.getElem?_map, hi, hj, Option.map_some, Option.map_some, hname]

end Graph

end FixedNet

import FixedNet.Network.DenseStack
import FixedNet.Proofs.Network.Chain
import FixedNet.Proofs.Text.Digits

namespace FixedNet

namespace DenseStack

variable {s : DenseStack} {init : Initializer}

/-- No width is zero, and all texts can be read. -/
structure Admissible (s : DenseStack) : Prop where
  inputs_pos : 0 < s.inputs
  hidden_pos : ∀ units ∈ s.hidden, 0 < units
  outputs_pos : 0 < s.outputs
  kernel_text : ∀ text ∈ s.kernelQuantizer, IsQuantizerText text
  bias_text : ∀ text ∈ s.biasQuantizer, IsQuantizerText text
  activation_text : ∃ op, LayerKind.readActivation s.activation = .ok op

def depth (s : DenseStack) : ℕ := 2 * s.hidden.length + 2 + if s.softmax then 1 else 0

/-- A hidden width stands twice, for the dense layer and its activation. -/
def hiddenWidths (hidden : List ℕ) : List ℕ := hidden.flatMap fun units ↦ [units, units]

def widthsBehind (s : DenseStack) : List ℕ :=
  hiddenWidths s.hidden ++ s.outputs :: if s.softmax then [s.outputs] else []

def closingLayers (s : DenseStack) (init : Initializer) : List LayerDescription :=
  s.denseLayer init "output" (s.hidden.getLast?.getD s.inputs) s.outputs ::
    if s.softmax then [⟨"softmax", [], .softmax⟩] else []

def layersBehind (s : DenseStack) (init : Initializer) : List LayerDescription :=
  s.hiddenLayers init 1 s.inputs s.hidden ++ s.closingLayers init

theorem fits_denseLayer (h : s.Admissible) (name : String) {width units : ℕ} (hunits : 0 < units) :
    (s.denseLayer init name width units).kind.Fits word64 [width] units := by
  apply LayerKind.Fits.dense hunits
  · simp
  · simp
  · exact h.kernel_text
  · exact h.bias_text

theorem fitAlong_hiddenLayers (h : s.Admissible) {hidden : List ℕ} (hpos : ∀ units ∈ hidden, 0 < units) {k width : ℕ}
    {rest : List LayerDescription} {widths : List ℕ} (hrest : FitAlong (hidden.getLast?.getD width) rest widths) :
    FitAlong width (s.hiddenLayers init k width hidden ++ rest) (hiddenWidths hidden ++ widths) := by
  induction hidden generalizing k width with
  | nil => simpa [hiddenLayers, hiddenWidths] using hrest
  | cons units hidden ih =>
    have hactivation : (LayerKind.activation s.activation).Fits word64 [units] units :=
      .activation (LayerKind.readActivation_isOk_iff.mp h.activation_text)
    have hbehind : FitAlong units (s.hiddenLayers init (k + 1) units hidden ++ rest) (hiddenWidths hidden ++ widths) :=
      ih (fun u hu ↦ hpos u (by simp [hu])) (by simpa [List.getLast?_cons] using hrest)
    exact .cons (fits_denseLayer h _ (hpos units (by simp))) (.cons hactivation hbehind)

theorem fitAlong_layersBehind (h : s.Admissible) (init : Initializer) :
    FitAlong s.inputs (s.layersBehind init) s.widthsBehind := by
  apply fitAlong_hiddenLayers h h.hidden_pos
  apply FitAlong.cons (fits_denseLayer h _ h.outputs_pos)
  split
  · exact .cons .softmax .nil
  · exact .nil

theorem length_widthsBehind : s.widthsBehind.length + 1 = s.depth := by
  have hhidden : (hiddenWidths s.hidden).length = 2 * s.hidden.length := by
    simp [hiddenWidths, Nat.mul_comm]
  unfold widthsBehind depth
  split <;> simp [hhidden]

theorem getElem?_length {width : ℕ} (widths : List ℕ) :
    (width :: widths)[widths.length]? = some (widths.getLast?.getD width) := by
  rw [← List.getLast?_cons, List.getLast?_eq_getElem?]
  rfl

theorem getD_length_widthsBehind : (s.inputs :: s.widthsBehind).getD s.widthsBehind.length 0 = s.outputs := by
  have hlast : s.widthsBehind.getLast? = some s.outputs := by
    unfold widthsBehind
    split <;> simp
  rw [List.getD_eq_getElem?_getD, getElem?_length, hlast]
  rfl

theorem getElem?_hiddenLayers {hidden : List ℕ} {k width i source units : ℕ} {rest : List LayerDescription}
    (hsource : (width :: hidden)[i]? = some source) (hunits : hidden[i]? = some units) :
    (s.hiddenLayers init k width hidden ++ rest)[2 * i]? =
      some (s.denseLayer init ("dense" ++ toString (k + i)) source units) := by
  induction hidden generalizing k width i with
  | nil => simp at hunits
  | cons next hidden ih =>
    cases i with
    | zero =>
      cases hsource
      cases hunits
      rfl
    | succ i =>
      have hi := ih (k := k + 1) (by simpa using hsource) (by simpa using hunits)
      rw [Nat.add_right_comm] at hi
      exact hi

theorem getD_hiddenWidths {hidden : List ℕ} {width i source : ℕ} {widths : List ℕ}
    (hsource : (width :: hidden)[i]? = some source) :
    (width :: (hiddenWidths hidden ++ widths)).getD (2 * i) 0 = source := by
  induction hidden generalizing width i with
  | nil =>
    cases i with
    | zero => simpa using hsource
    | succ i => simp at hsource
  | cons next hidden ih =>
    cases i with
    | zero => simpa using hsource
    | succ i =>
      have hnext : (next :: hidden)[i]? = some source := by simpa using hsource
      exact ih hnext

theorem length_hiddenLayers {hidden : List ℕ} {k width : ℕ} :
    (s.hiddenLayers init k width hidden).length = 2 * hidden.length := by
  induction hidden generalizing k width with
  | nil => rfl
  | cons units hidden ih => simp only [hiddenLayers, List.length_cons, ih, Nat.mul_succ]

theorem getElem?_layersBehind {i source units : ℕ} (hsource : (s.inputs :: s.hidden)[i]? = some source)
    (hunits : s.hidden[i]? = some units) :
    (s.layersBehind init)[2 * i]? = some (s.denseLayer init ("dense" ++ toString (i + 1)) source units) := by
  rw [Nat.add_comm i 1]
  exact getElem?_hiddenLayers hsource hunits

theorem getElem?_layersBehind_output : (s.layersBehind init)[2 * s.hidden.length]? =
    some (s.denseLayer init "output" (s.hidden.getLast?.getD s.inputs) s.outputs) := by
  rw [layersBehind, List.getElem?_append_right (by rw [length_hiddenLayers]), length_hiddenLayers, Nat.sub_self]
  rfl

def hiddenNames (k n : ℕ) : List String :=
    (List.range' k n).flatMap fun i ↦ ["dense" ++ toString i, "act" ++ toString i]

theorem map_name_hiddenLayers {k width : ℕ} (hidden : List ℕ) :
    (s.hiddenLayers init k width hidden).map LayerDescription.name = hiddenNames k hidden.length := by
  induction hidden generalizing k width with
  | nil => rfl
  | cons units hidden ih =>
    simp [hiddenLayers, denseLayer, hiddenNames, List.range'_succ, ih]

theorem mem_hiddenNames {name : String} {k n : ℕ} (h : name ∈ hiddenNames k n) :
    ∃ i : ℕ, name = "dense" ++ toString i ∨ name = "act" ++ toString i := by
  obtain ⟨i, -, hi⟩ := List.mem_flatMap.mp h
  exact ⟨i, by simpa using hi⟩

theorem numbered_inj {front : String} {i j : ℕ} : front ++ toString i = front ++ toString j ↔ i = j := by
  refine ⟨fun h ↦ ?_, fun h ↦ by rw [h]⟩
  exact Nat.repr_injective ((String.append_right_inj front).mp h)

theorem dense_ne_act (i j : ℕ) : "dense" ++ toString i ≠ "act" ++ toString j := by
  intro h
  simpa using congrArg String.toList h

theorem nodup_hiddenNames (k n : ℕ) : (hiddenNames k n).Nodup := by
  refine List.nodup_flatMap.mpr ⟨fun i _ ↦ by simp, ?_⟩
  refine List.Pairwise.imp (fun {i j} hij ↦ ?_) List.nodup_range'
  intro name hi hj
  simp only [List.mem_cons, List.not_mem_nil, or_false] at hi hj
  rcases hi with rfl | rfl
  · rcases hj with h | h
    · exact hij (numbered_inj.mp h)
    · exact dense_ne_act i j h
  · rcases hj with h | h
    · exact dense_ne_act j i h.symm
    · exact hij (numbered_inj.mp h)

theorem not_mem_hiddenNames {name : String} (hname : name = "input" ∨ name = "output" ∨ name = "softmax") (k n : ℕ) :
    name ∉ hiddenNames k n := by
  intro h
  obtain ⟨i, rfl | rfl⟩ := mem_hiddenNames h
  · rcases hname with h | h | h <;> simpa using congrArg String.toList h
  · rcases hname with h | h | h <;> simpa using congrArg String.toList h

theorem nodup_map_name_layers : ((s.layers init).map LayerDescription.name).Nodup := by
  have hnodup := nodup_hiddenNames 1 s.hidden.length
  have hinput := not_mem_hiddenNames (.inl rfl) 1 s.hidden.length
  have houtput := not_mem_hiddenNames (.inr (.inl rfl)) 1 s.hidden.length
  have hsoftmax := not_mem_hiddenNames (.inr (.inr rfl)) 1 s.hidden.length
  change ("input" :: (s.layersBehind init).map LayerDescription.name).Nodup
  simp only [layersBehind, closingLayers, List.map_cons, List.map_append, map_name_hiddenLayers]
  have hne (name : String) (hname : name ∉ hiddenNames 1 s.hidden.length) :
      ∀ other ∈ hiddenNames 1 s.hidden.length, other ≠ name := fun other hother heq ↦ hname (heq ▸ hother)
  split
  · simpa [denseLayer, List.nodup_append, hnodup, hinput] using
      fun other hother ↦ ⟨hne _ houtput other hother, hne _ hsoftmax other hother⟩
  · simpa [denseLayer, List.nodup_append, hnodup, hinput] using hne _ houtput

theorem isInput_hiddenLayers {layer : LayerDescription} {hidden : List ℕ} {k width : ℕ}
    (h : layer ∈ s.hiddenLayers init k width hidden) : layer.kind.isInput = false ∧ layer.inputs = [] := by
  induction hidden generalizing k width with
  | nil => simp [hiddenLayers] at h
  | cons units hidden ih =>
    rcases List.mem_cons.mp h with rfl | h
    · exact ⟨rfl, rfl⟩
    rcases List.mem_cons.mp h with rfl | h
    · exact ⟨rfl, rfl⟩
    · exact ih h

theorem isInput_layersBehind {layer : LayerDescription} (h : layer ∈ s.layersBehind init) :
    layer.kind.isInput = false ∧ layer.inputs = [] := by
  rcases List.mem_append.mp h with h | h
  · exact isInput_hiddenLayers h
  rcases List.mem_cons.mp h with rfl | h
  · exact ⟨rfl, rfl⟩
  · split at h
    · obtain rfl := List.mem_singleton.mp h
      exact ⟨rfl, rfl⟩
    · simp at h

/-- A dense layer of the given name and widths as the initializer drew it, with the quantizers of the stack. -/
structure Drawn (s : DenseStack) (init : Initializer) (name : String) (source units : ℕ) {n : ℕ} (layer : Layer n) :
    Prop where
  name_eq : layer.name = name
  features_eq : layer.features = units
  op_eq : ∃ kernelQuantizer biasQuantizer,
    LayerKind.readOptional s.kernelQuantizer = .ok kernelQuantizer ∧
      LayerKind.readOptional s.biasQuantizer = .ok biasQuantizer ∧
      layer.op = .dense source (init name source units).weights.toList (init name source units).bias.toList
        kernelQuantizer biasQuantizer

theorem drawn_of_build {name : String} {source units n : ℕ} {layer : Layer n} (hname : layer.name = name)
    (h : (s.denseLayer init name source units).kind.build [source] = .ok (layer.op, layer.features)) :
    s.Drawn init name source units layer := by
  obtain ⟨_, q, q', hsource, -, -, -, hq, hq', hop, hunits⟩ := LayerKind.build_dense_eq_ok_iff.mp h
  cases hsource
  exact ⟨hname, hunits.symm, q, q', hq, hq', hop⟩

theorem describe_eq_some (h : s.Admissible) : s.describe init = some (.ofLayers (s.layers init)) := by
  have hall : (s.inputs :: s.hidden).all (0 < ·) = true := by
    simpa using ⟨h.inputs_pos, h.hidden_pos⟩
  exact if_pos hall

/-- Whatever is drawn, a stack describes a chain of dense layers that is accepted as it is listed. -/
theorem describe_accepted (s : DenseStack) (init : Initializer) (h : s.Admissible) :
    ∃ d g, s.describe init = some d ∧ Graph.ofDescription d = .ok g ∧ g.size = s.depth ∧
      g.order = List.finRange g.size ∧ g.input.val = 0 ∧ g.inputFeatures = s.inputs ∧
      g.output.val + 1 = g.size ∧ g.outputFeatures = s.outputs ∧
      (∀ i source units, (s.inputs :: s.hidden)[i]? = some source → s.hidden[i]? = some units →
        ∃ j : Fin g.size, j.val = 2 * i + 1 ∧ s.Drawn init ("dense" ++ toString (i + 1)) source units (g.layer j)) ∧
      ∃ j : Fin g.size, j.val = 2 * s.hidden.length + 1 ∧
        s.Drawn init "output" (s.hidden.getLast?.getD s.inputs) s.outputs (g.layer j) := by
  obtain ⟨g, hg, hsize, horder, hinput, houtput, hfeatures, hget⟩ :=
    (fitAlong_layersBehind h init).exists_graph "input" h.inputs_pos nodup_map_name_layers
      fun _ hlayer ↦ isInput_layersBehind hlayer
  have hlength := (fitAlong_layersBehind h init).length_eq
  have hdepth := length_widthsBehind (s := s)
  -- a dense layer is drawn for the width in front of it
  have hdrawn {k source units : ℕ} {name : String} (hlayer : (s.layersBehind init)[k]? =
      some (s.denseLayer init name source units)) (hsource : (s.inputs :: s.widthsBehind).getD k 0 = source) :
      ∃ j : Fin g.size, j.val = k + 1 ∧ s.Drawn init name source units (g.layer j) := by
    obtain ⟨hk, -⟩ := List.getElem?_eq_some_iff.mp hlayer
    refine ⟨⟨k + 1, by omega⟩, rfl, ?_⟩
    obtain ⟨hname, hbuild⟩ := hget ⟨k + 1, by omega⟩ k _ rfl hlayer
    exact drawn_of_build hname (hsource ▸ hbuild)
  refine ⟨_, g, describe_eq_some h, hg, by omega, horder, hinput, ?_, houtput, ?_,
    fun i source units hsource hunits ↦ ?_, ?_⟩
  · have hfirst := hfeatures g.input
    rw [hinput] at hfirst
    exact hfirst
  · have hlast := hfeatures g.output
    rw [show g.output.val = s.widthsBehind.length by omega, getD_length_widthsBehind] at hlast
    exact hlast
  · exact hdrawn (getElem?_layersBehind hsource hunits) (getD_hiddenWidths hsource)
  · exact hdrawn getElem?_layersBehind_output (getD_hiddenWidths (getElem?_length s.hidden))

def classifier : DenseStack where
  inputs := 6
  hidden := [8, 4]
  outputs := 3
  kernelQuantizer := some "quantized_bits(6,0,alpha=1)"
  biasQuantizer := some "quantized_bits(6,0,alpha=1)"
  activation := "quantized_relu(6,0)"
  softmax := true

theorem admissible_classifier : classifier.Admissible where
  inputs_pos := by decide
  hidden_pos := by decide
  outputs_pos := by decide
  kernel_text := by
    rintro text ⟨⟩
    exact ⟨_, rfl⟩
  bias_text := by
    rintro text ⟨⟩
    exact ⟨_, rfl⟩
  activation_text := ⟨_, rfl⟩

def zeros : Initializer := fun _ _ _ ↦ ⟨Vector.replicate _ 0, Vector.replicate _ 0⟩

theorem describe_accepted_classifier : classifier.Admissible ∧
    ∃ d g, classifier.describe zeros = some d ∧ Graph.ofDescription d = .ok g ∧ g.size = 7 ∧ g.inputFeatures = 6 ∧
      g.outputFeatures = 3 ∧ ∃ j : Fin g.size, j.val = 3 ∧ classifier.Drawn zeros "dense2" 8 4 (g.layer j) := by
  obtain ⟨d, g, hd, hg, hsize, -, -, hinput, -, houtput, hdense, -⟩ :=
    describe_accepted classifier zeros admissible_classifier
  exact ⟨admissible_classifier, d, g, hd, hg, hsize, hinput, houtput, hdense 1 8 4 rfl rfl⟩

end DenseStack

end FixedNet

import FixedNet.Proofs.Inference.Listing
import FixedNet.Proofs.Precision.Transcoded

namespace FixedNet

namespace Fixed

/-- A sign as it stands in a network, as its code or as its value. -/
def sign (coded positive : Bool) : Fixed := if positive then one else if coded then zero else minusOne

theorem narrow_sign (coded : Bool) (x : Fixed) :
    narrow (.signs coded) ((Shape.sign !coded).apply x) = sign coded !x.isNegative := by
  change narrow _ (if !x.isNegative then one else if !coded then minusOne else zero) = _
  cases x.isNegative <;> cases coded <;> rfl

theorem decodeBipolar_sign (positive : Bool) : (sign true positive).decodeBipolar = .ok (sign false positive) := by
  cases positive <;> rfl

theorem ofFloat_selectSign (coded : Bool) (x : Float) :
    ofFloat (.signs coded) (selectSign coded x) = .ok (sign coded (decide (0 ≤ x))) := by
  unfold selectSign
  by_cases hx : 0 ≤ x
  · rw [if_pos hx, decide_eq_true hx]
    cases coded <;> decide +kernel
  · rw [if_neg hx, decide_eq_false hx]
    cases coded <;> decide +kernel

theorem toFloat_sign (positive : Bool) : (sign false positive).toFloat = 2 * (sign true positive).toFloat - 1 := by
  cases positive <;> decide +kernel

end Fixed

theorem isFinite_selectSign (coded : Bool) (x : Float) : (selectSign coded x).isFinite = true := by
  unfold selectSign
  split
  · decide +kernel
  · cases coded <;> decide +kernel

theorem decodeInput_signs (coded : Bool) (signs : List Bool) :
    decodeInput (decide ((Quantizer.signs coded).encoding = .xnor)) (signs.map (Fixed.sign coded)) =
      .ok (signs.map (Fixed.sign false)) := by
  cases coded with
  | false => rfl
  | true => exact mapM_map_eq_ok Fixed.decodeBipolar_sign signs

namespace Quantizer

theorem projectChannel_signs (coded : Bool) (channel : List Float) :
    (signs coded).projectChannel channel = .ok (channel.map (selectSign coded), 1) := by
  have hunit : ((1 : Float).isFinite && decide (0 < (1 : Float))) = true := by decide +kernel
  change (if ((1 : Float).isFinite && decide (0 < (1 : Float))) = true then _
    else Except.error (.parameter (.alpha 1))) = _
  rw [if_pos hunit]
  rfl

/-- These are the numbers of which the signs are taken, however they are coded. -/
def TakesSigns (values : List Float) (channels : ℕ) (xs : List Float) : Prop :=
  ∀ coded, ∃ tensor, (signs coded).projectTensor values channels = .ok tensor ∧ tensor.codes = xs.map (selectSign coded)

theorem exists_takesSigns {coded : Bool} {values : List Float} {channels : ℕ} {tensor : CodedTensor}
    (h : (signs coded).projectTensor values channels = .ok tensor) : ∃ xs, TakesSigns values channels xs := by
  have hprojected (coded : Bool) (stretches : List (List Float)) : stretches.mapM (signs coded).projectChannel =
      .ok (stretches.map fun channel ↦ (channel.map (selectSign coded), 1)) := by
    rw [← mapM_map_eq_ok (projectChannel_signs coded), List.map_id']
  have hcodes (coded : Bool) (stretches : List (List Float)) :
      (stretches.map fun channel ↦ (channel.map (selectSign coded), (1 : Float))).flatMap Prod.fst =
        stretches.flatten.map (selectSign coded) := by
    rw [List.flatMap_map, List.map_flatten]
    rfl
  obtain ⟨hchannels, ⟨rfl, -⟩ | ⟨hvalues, -⟩⟩ := projectTensor_eq_ok_iff.mp h
  · exact ⟨[], fun coded ↦ ⟨_, projectTensor_eq_ok_iff.mpr ⟨hchannels, .inl ⟨rfl, rfl⟩⟩, rfl⟩⟩
  · exact ⟨_, fun coded ↦ ⟨_, projectTensor_eq_ok_iff.mpr ⟨hchannels, .inr ⟨hvalues, _, hprojected coded _, rfl⟩⟩,
      hcodes coded _⟩⟩

end Quantizer

namespace Layer

variable {n n' : ℕ} {layer : Layer n} {layer' : Layer n'} {formats : SlotMap Format}

theorem snap_signs (layer : Layer n) (parameter : String) (coded : Bool) (xs : List Float) :
    layer.snap parameter (xs.map (selectSign coded)) (.signs coded) =
      .ok (xs.map fun x ↦ .sign coded (decide (0 ≤ x))) := by
  have hfinite : layer.ensureFinite parameter (xs.map (selectSign coded)) = .ok () := by
    refine if_pos (List.all_eq_true.mpr fun y hy ↦ ?_)
    obtain ⟨x, -, rfl⟩ := List.mem_map.mp hy
    exact isFinite_selectSign coded x
  exact bind_eq_ok_iff.mpr ⟨(), hfinite, mapError_eq_ok_iff.mpr (mapM_map_eq_ok (Fixed.ofFloat_selectSign coded) xs)⟩

theorem compileWeights_of_takesSigns {coded : Bool} {weights xs : List Float}
    (hweight : formats.get .weight = some (.signs coded)) (hscale : layer.op.hasKernelScale = false)
    (hfinite : layer.ensureFinite "weights" weights = .ok ()) (hxs : Quantizer.TakesSigns weights layer.features xs) :
    layer.compileWeights formats weights (some (.signs coded)) =
      .ok (xs.map fun x ↦ .sign false (decide (0 ≤ x)), List.replicate layer.features none) := by
  obtain ⟨tensor, htensor, hcodes⟩ := hxs coded
  have hsnap := layer.snap_signs "weights" coded xs
  rw [← hcodes] at hsnap
  refine bind_eq_ok_iff.mpr ⟨.signs coded, formatAt_eq_ok_iff.mpr hweight, bind_eq_ok_iff.mpr ⟨(), hfinite,
    bind_eq_ok_iff.mpr ⟨tensor, mapError_eq_ok_iff.mpr htensor, bind_eq_ok_iff.mpr ⟨_, hsnap, ?_⟩⟩⟩⟩
  rw [hscale]
  cases coded with
  | false => rfl
  | true =>
    have hdecode := mapM_map_eq_ok (fun x : Float ↦ Fixed.decodeBipolar_sign (decide (0 ≤ x))) xs
    exact bind_eq_ok_iff.mpr ⟨_, mapError_eq_ok_iff.mpr hdecode, rfl⟩

theorem compileWeights_signs {coded coded' : Bool} {weights : List Float} {formats' : SlotMap Format}
    {compiled : List Fixed × List (Option Fixed)} (hweight : formats.get .weight = some (.signs coded))
    (hweight' : formats'.get .weight = some (.signs coded')) (hscale : layer.op.hasKernelScale = false)
    (hscale' : layer'.op.hasKernelScale = false) (hname : layer'.name = layer.name)
    (hfeatures : layer'.features = layer.features)
    (h : layer.compileWeights formats weights (some (.signs coded)) = .ok compiled) :
    layer'.compileWeights formats' weights (some (.signs coded')) = .ok compiled := by
  have h₀ := h
  obtain ⟨f, -, h⟩ := bind_eq_ok_iff.mp h
  obtain ⟨_, hfinite, h⟩ := bind_eq_ok_iff.mp h
  obtain ⟨tensor, htensor, -⟩ := bind_eq_ok_iff.mp h
  obtain ⟨xs, hxs⟩ := Quantizer.exists_takesSigns (mapError_eq_ok_iff.mp htensor)
  have hfinite' : layer'.ensureFinite "weights" weights = .ok () := by
    rw [← hfinite, ensureFinite, ensureFinite, hname]
  rw [← h₀, compileWeights_of_takesSigns hweight hscale hfinite hxs,
    compileWeights_of_takesSigns hweight' hscale' hfinite' (hfeatures ▸ hxs), hfeatures]

theorem compileBias_congr {formats' : SlotMap Format} (hbias : formats'.get .bias = formats.get .bias)
    (hname : layer'.name = layer.name) (hfeatures : layer'.features = layer.features) (bias : List Float)
    (biasQuantizer : Option Quantizer) :
    layer'.compileBias formats' bias biasQuantizer = layer.compileBias formats bias biasQuantizer := by
  obtain ⟨name, op, _, features⟩ := layer
  obtain ⟨name', op', _, features'⟩ := layer'
  obtain rfl : name' = name := hname
  obtain rfl : features' = features := hfeatures
  unfold compileBias formatAt
  rw [hbias]
  rfl

theorem compileDense_signs {coded coded' : Bool} {inFeatures : ℕ} {weights bias : List Float}
    {biasQuantizer : Option Quantizer} {k : Kernel}
    (hop : layer.op = .dense inFeatures weights bias (some (.signs coded)) biasQuantizer)
    (hop' : layer'.op = .dense inFeatures weights bias (some (.signs coded')) biasQuantizer)
    (hname : layer'.name = layer.name) (hfeatures : layer'.features = layer.features)
    (hweight : formats.get .weight = some (.signs coded))
    (h : layer.compileDense formats inFeatures weights bias (some (.signs coded)) biasQuantizer = .ok k) :
    layer'.compileDense (formats.set .weight (some (.signs coded'))) inFeatures weights bias (some (.signs coded'))
      biasQuantizer = .ok k := by
  have hunit : Alpha.unit.isUnit = true := by decide +kernel
  have hscale : layer.op.hasKernelScale = false := by
    rw [hop]
    exact congrArg not hunit
  have hscale' : layer'.op.hasKernelScale = false := by
    rw [hop']
    exact congrArg not hunit
  obtain ⟨compiled, hcompiled, h⟩ := bind_eq_ok_iff.mp h
  obtain ⟨biases, hbiases, h⟩ := bind_eq_ok_iff.mp h
  obtain ⟨accum, haccum, h⟩ := bind_eq_ok_iff.mp h
  obtain ⟨result, hresult, h⟩ := bind_eq_ok_iff.mp h
  have hweight' : (formats.set .weight (some (.signs coded'))).get .weight = some (.signs coded') := rfl
  have hcompiled' := compileWeights_signs hweight hweight' hscale hscale' hname hfeatures hcompiled
  refine bind_eq_ok_iff.mpr ⟨compiled, hcompiled', bind_eq_ok_iff.mpr ⟨biases, ?_, bind_eq_ok_iff.mpr ⟨accum,
    formatAt_eq_ok_iff.mpr (formatAt_eq_ok_iff.mp haccum), bind_eq_ok_iff.mpr ⟨result,
      formatAt_eq_ok_iff.mpr (formatAt_eq_ok_iff.mp hresult), ?_⟩⟩⟩⟩
  · rw [← hbiases]
    exact compileBias_congr rfl hname hfeatures bias biasQuantizer
  · rw [hfeatures]
    exact h

end Layer

theorem Op.encoding_eq (op : Op) : op.encoding = ((op.quantizerAt .result).map Quantizer.encoding).getD .direct := by
  cases op with
  | activation function => cases function <;> rfl
  | input | dense | batchNorm | softmax | add | concatenate => rfl

/-- What layers do that stand to each other in this way. -/
inductive Op.Works (coded coded' : Bool) : Op → Op → Kernel → Kernel → Prop
  | same {op op' : Op} (hresult : op'.quantizerAt .result = op.quantizerAt .result) (k : Kernel) :
      Works coded coded' op op' k k
  | signs : Works coded coded' (.activation (.quantized (.signs coded))) (.activation (.quantized (.signs coded')))
      (.activation (.sign !coded) (.signs coded)) (.activation (.sign !coded') (.signs coded'))

/-- What such layers come to. -/
inductive Op.Outputs (coded coded' : Bool) : Op → Op → List Fixed → List Fixed → Prop
  | same {op op' : Op} (hresult : op'.quantizerAt .result = op.quantizerAt .result) (xs : List Fixed) :
      Outputs coded coded' op op' xs xs
  | signs (signs : List Bool) :
      Outputs coded coded' (.activation (.quantized (.signs coded))) (.activation (.quantized (.signs coded')))
        (signs.map (Fixed.sign coded)) (signs.map (Fixed.sign coded'))

variable {coded coded' : Bool}

theorem Op.Outputs.decodeInput_eq {op op' : Op} {xs xs' : List Fixed} (h : Op.Outputs coded coded' op op' xs xs') :
    decodeInput (decide (op'.encoding = .xnor)) xs' = decodeInput (decide (op.encoding = .xnor)) xs := by
  cases h with
  | same hresult => rw [op'.encoding_eq, hresult, ← op.encoding_eq]
  | signs signs => exact (decodeInput_signs coded' signs).trans (decodeInput_signs coded signs).symm

theorem Op.Outputs.toFloat_eq {op op' : Op} {xs xs' : List Fixed} (h : Op.Outputs true false op op' xs xs') :
    if op'.quantizerAt .result = op.quantizerAt .result then xs'.map Fixed.toFloat = xs.map Fixed.toFloat
    else xs'.map Fixed.toFloat = (xs.map Fixed.toFloat).map fun v ↦ 2 * v - 1 := by
  cases h with
  | same hresult =>
    rw [if_pos hresult]
  | signs signs =>
    rw [if_neg (by decide), List.map_map, List.map_map, List.map_map]
    exact List.map_congr_left fun positive _ ↦ Fixed.toFloat_sign positive

theorem Op.Works.exists_run {op op' : Op} {k k' : Kernel} (h : Op.Works coded coded' op op' k k') {inputFeatures : ℕ}
    {row : List Float} {inputs : List (List Fixed)} {p : Progress} {xs : List Fixed}
    (hrun : (k.run inputFeatures row inputs p).1 = .ok xs) :
    ∃ xs', (k'.run inputFeatures row inputs p).1 = .ok xs' ∧ Op.Outputs coded coded' op op' xs xs' := by
  cases h with
  | same hresult => exact ⟨xs, hrun, .same hresult xs⟩
  | signs =>
    have hsigns (coded : Bool) (xs : List Fixed) :
        (xs.map (Shape.sign !coded).apply).map (Fixed.narrow (.signs coded)) =
          (xs.map fun x ↦ !x.isNegative).map (Fixed.sign coded) := by
      rw [List.map_map, List.map_map]
      exact List.map_congr_left fun x _ ↦ Fixed.narrow_sign coded x
    simp only [Kernel.run, Work.fst_enter_bind, Work.fst_pure, hsigns] at hrun ⊢
    cases hrun
    exact ⟨_, rfl, .signs _⟩

namespace Graph

variable {g g' : Graph} {d d' : Description} {c : Config} {t : Typing g} {t' : Typing g'} {row : List Float}

theorem softmaxInputBits_of_signs {i j : Fin g.size} {rest : List (Fin g.size)}
    (hinputs : (g.layer i).inputs = j :: rest)
    (hop : (g.layer j).op = .activation (.quantized (.signs coded)))
    (hresult : (t.get j).formats.get .result = some (.signs coded)) : g.softmaxInputBits t i = .ok 2 := by
  unfold softmaxInputBits
  simp only [hinputs, hop, Layer.formatAt_eq_ok_iff.mpr hresult]
  cases coded <;> rfl

namespace Transcoding

variable {m : Transcoding c coded coded' g g'}

theorem Resolves.softmaxInputBits_eq (h : m.Resolves t t') (i : Fin g.size) :
    g'.softmaxInputBits t' (m.index i) = g.softmaxInputBits t i := by
  have hinputs' := m.inputs_eq i
  cases hinputs : (g.layer i).inputs with
  | nil =>
    rw [hinputs, List.map_nil] at hinputs'
    unfold softmaxInputBits
    rw [hinputs, hinputs']
  | cons j rest =>
    rw [hinputs, List.map_cons] at hinputs'
    have hj := (h.retypes j).formats
    generalize hop : (g.layer j).op = op, hop' : (g'.layer (m.index j)).op = op', hf : (t.get j).formats = formats,
      hf' : (t'.get (m.index j)).formats = formats' at hj
    cases hj with
    | activation hresult =>
      rw [softmaxInputBits_of_signs hinputs hop (hf ▸ hresult), softmaxInputBits_of_signs hinputs' hop' (hf' ▸ rfl)]
    | same =>
      unfold softmaxInputBits Layer.formatAt
      simp only [hinputs, hinputs', hop, hop', hf, hf', m.name_eq]
    | kernel =>
      unfold softmaxInputBits Layer.formatAt
      simp only [hinputs, hinputs', hop, hop', hf, hf', m.name_eq]
      rfl

theorem Resolves.unresolvedSlot_eq_none (h : m.Resolves t t') {i : Fin g.size}
    (hi : (g.layer i).op.unresolvedSlot (t.get i).formats = none) :
    (g'.layer (m.index i)).op.unresolvedSlot (t'.get (m.index i)).formats = none := by
  have hformats := (h.retypes i).formats
  generalize (g.layer i).op = op, (g'.layer (m.index i)).op = op', (t.get i).formats = formats,
    (t'.get (m.index i)).formats = formats' at hi hformats ⊢
  cases hformats with
  | same => exact hi
  | kernel hweight =>
    refine List.find?_eq_none.mpr fun p hp ↦ ?_
    have hsome := List.find?_eq_none.mp hi p hp
    rw [SlotMap.get_set]
    split
    · exact Bool.false_ne_true
    · exact hsome
  | activation hresult => rfl

theorem Resolves.compileKernel_eq (h : m.Resolves t t') {i : Fin g.size}
    (hop : (g'.layer (m.index i)).op = (g.layer i).op)
    (hformats : (t'.get (m.index i)).formats = (t.get i).formats) :
    g'.compileKernel t' (m.index i) = g.compileKernel t i := by
  have hlayer : g'.layer (m.index i) = (g.layer i).renamed m.index :=
    Layer.eq_renamed (m.name_eq i) hop (m.inputs_eq i) (m.features_eq i)
  unfold compileKernel compileSoftmax
  rw [h.softmaxInputBits_eq, hformats, (h.retypes i).tableSize_eq, hlayer]
  rfl

theorem Resolves.exists_compileKernel (h : m.Resolves t t') {i : Fin g.size} {k : Kernel}
    (hk : g.compileKernel t i = .ok k) : ∃ k', g'.compileKernel t' (m.index i) = .ok k' ∧
      Op.Works coded coded' (g.layer i).op (g'.layer (m.index i)).op k k' := by
  have hi := (h.retypes i).formats
  generalize hop : (g.layer i).op = op, hop' : (g'.layer (m.index i)).op = op', hf : (t.get i).formats = formats,
    hf' : (t'.get (m.index i)).formats = formats' at hi
  cases hi with
  | same => exact ⟨k, (h.compileKernel_eq (hop'.trans hop.symm) (hf'.trans hf.symm)).trans hk, .same rfl k⟩
  | kernel hweight =>
    unfold compileKernel at hk ⊢
    dsimp only at hk ⊢
    rw [hop, hf] at hk
    rw [hop', hf']
    exact ⟨k, Layer.compileDense_signs hop hop' (m.name_eq i) (m.features_eq i) hweight hk, .same (by rfl) k⟩
  | activation hresult =>
    unfold compileKernel at hk ⊢
    dsimp only at hk ⊢
    rw [hop, hf] at hk
    rw [hop', hf']
    obtain ⟨result, hr, hk⟩ := bind_eq_ok_iff.mp hk
    rw [Layer.formatAt_eq_ok_iff, hresult] at hr
    cases hr
    cases pure_eq_ok_iff.mp hk
    exact ⟨_, rfl, .signs⟩

theorem Resolves.exists_compileStep (h : m.Resolves t t') {i : Fin g.size} {s : Step g.size}
    (hs : g.compileStep t i = .ok s) : ∃ s', g'.compileStep t' (m.index i) = .ok s' ∧
      Op.Works coded coded' (g.layer i).op (g'.layer (m.index i)).op s.kernel s'.kernel := by
  obtain ⟨k, hk, hs⟩ := bind_eq_ok_iff.mp hs
  cases pure_eq_ok_iff.mp hs
  obtain ⟨k', hk', hworks⟩ := h.exists_compileKernel hk
  exact ⟨_, bind_eq_ok_iff.mpr ⟨k', hk', rfl⟩, hworks⟩

theorem Resolves.exists_compile (h : m.Resolves t t') (hd : g.Describes d) (hd' : g'.Describes d')
    (hp : ∃ p, g.compile t = .ok p) : ∃ p', g'.compile t' = .ok p' := by
  obtain ⟨hslots, hsteps⟩ := (exists_compile_iff hd).mp hp
  refine (exists_compile_iff hd').mpr ⟨m.forall_iff.mpr fun i ↦ h.unresolvedSlot_eq_none (hslots i),
    m.forall_iff.mpr fun i ↦ ?_⟩
  obtain ⟨s, hs⟩ := hsteps i
  obtain ⟨s', hs', -⟩ := h.exists_compileStep hs
  exact ⟨s', hs'⟩

include m in
theorem inputFeatures_eq : g'.inputFeatures = g.inputFeatures := by
  unfold inputFeatures
  rw [m.input_eq, m.features_eq]

theorem Resolves.exists_yields (h : m.Resolves t t') {values : Vector (List Fixed) g.size} {i : Fin g.size}
    {xs : List Fixed} (hi : g.Yields t row values i xs) :
    ∃ xs', Op.Outputs coded coded' (g.layer i).op (g'.layer (m.index i)).op xs xs' ∧
      ∀ values' : Vector (List Fixed) g'.size, (∀ j ∈ (g.layer i).inputs, Op.Outputs coded coded' (g.layer j).op
        (g'.layer (m.index j)).op (values.get j) (values'.get (m.index j))) →
          g'.Yields t' row values' (m.index i) xs' := by
  obtain ⟨s, inputs, hs, hinputs, hrun⟩ := hi
  obtain ⟨s', hs', hworks⟩ := h.exists_compileStep hs
  obtain ⟨xs', hrun', houtputs⟩ := hworks.exists_run hrun
  have hname : s'.name = s.name := by
    rw [(isStep_of_compileStep hs').name_eq, (isStep_of_compileStep hs).name_eq, m.name_eq]
  refine ⟨xs', houtputs, fun values' hvalues ↦ ⟨s', inputs, hs', ?_, by rwa [m.inputFeatures_eq, hname]⟩⟩
  rw [← hinputs, (isStep_of_compileStep hs).inputs_eq, (isStep_of_compileStep hs').inputs_eq, m.inputs_eq,
    List.map_map, List.mapM_map, List.mapM_map]
  exact mapM_congr_of_mem fun j hj ↦ (hvalues j hj).decodeInput_eq

theorem Resolves.exists_predictRow (h : m.Resolves t t') (hd : g.Describes d) (hd' : g'.Describes d') {p p' : Plan}
    (hp : g.compile t = .ok p) (hp' : g'.compile t' = .ok p') {out : List Float} (hout : p.predictRow row = .ok out) :
    ∃ xs xs', out = xs.map Fixed.toFloat ∧ p'.predictRow row = .ok (xs'.map Fixed.toFloat) ∧
      Op.Outputs coded coded' (g.layer g.output).op (g'.layer g'.output).op xs xs' := by
  obtain ⟨values, hyields, rfl⟩ := (predictRow_iff_yields hd hp).mp hout
  obtain ⟨values', houtputs, hyields'⟩ := m.exists_counterparts (g.Yields t row) (g'.Yields t' row) values
    (fun i ↦ h.exists_yields) hyields
  refine ⟨values.get g.output, values'.get g'.output, rfl,
    (predictRow_iff_yields hd' hp').mpr ⟨values', hyields', rfl⟩, ?_⟩
  rw [m.output_eq]
  exact houtputs g.output

end Transcoding

theorem exists_transcoding (hg : Graph.ofDescription d = .ok g) (hg' : Graph.ofDescription d' = .ok g')
    (h : List.Forall₂ (LayerDescription.Transcodes c coded coded') d d') :
    Nonempty (Transcoding c coded coded' g g') := exists_matching hg hg' (h.imp fun _ _ h ↦ h.alike)

end Graph

theorem Description.exists_graph_of_transcodes {c : Config} {d d' : Description}
    (h : List.Forall₂ (LayerDescription.Transcodes c coded coded') d d') (hg : ∃ g, Graph.ofDescription d = .ok g) :
    ∃ g', Graph.ofDescription d' = .ok g' := by
  obtain ⟨g, hg⟩ := hg
  exact isOk_of_wellFormed ((wellFormed_of_isOk hg).of_alike (h.imp fun _ _ h ↦ h.alike))

/-- Two networks of which the second has signs as values where the first has codes of signs, in kernels or in
activations whose slots no scope overrides: both are accepted or neither, both are resolved or neither, both
compile or neither. All slots whose quantizer stays keep their format, accumulators among them, and tables their
size. Every row has a prediction in both or in neither, and it is the same, unless the outputs themselves are
the signs; then a code `v` stands where the other network has the value `2 * v - 1`. -/
theorem sign_codes_transparent (c : Config) {d d' : Description}
    (h : List.Forall₂ (LayerDescription.Transcodes c true false) d d') :
    ((∃ g, Graph.ofDescription d = .ok g) ↔ ∃ g', Graph.ofDescription d' = .ok g') ∧
    ∀ g g', Graph.ofDescription d = .ok g → Graph.ofDescription d' = .ok g' → ∀ t₀ t₀',
      ((g.resolve c t₀).2 = .ok () ↔ (g'.resolve c t₀').2 = .ok ()) ∧
      ∀ t t', g.resolve c t₀ = (t, .ok ()) → g'.resolve c t₀' = (t', .ok ()) →
        (∀ i i', (g'.layer i').name = (g.layer i).name →
          (t'.get i').tableSize = (t.get i).tableSize ∧
          (t'.get i').formats.get .accum = (t.get i).formats.get .accum ∧
          ∀ p, (g'.layer i').op.quantizerAt p = (g.layer i).op.quantizerAt p →
            (t'.get i').formats.get p = (t.get i).formats.get p) ∧
        ((∃ p, g.compile t = .ok p) ↔ ∃ p', g'.compile t' = .ok p') ∧
        ∀ p p', g.compile t = .ok p → g'.compile t' = .ok p' → ∀ row,
          ((∃ out, p.predictRow row = .ok out) ↔ ∃ out', p'.predictRow row = .ok out') ∧
          ∀ out out', p.predictRow row = .ok out → p'.predictRow row = .ok out' →
            if (g'.layer g'.output).op.quantizerAt .result = (g.layer g.output).op.quantizerAt .result then out' = out
            else out' = out.map fun v ↦ 2 * v - 1 := by
  have h' : List.Forall₂ (LayerDescription.Transcodes c false true) d' d := h.flip.imp fun _ _ h ↦ h.symm
  refine ⟨⟨Description.exists_graph_of_transcodes h, Description.exists_graph_of_transcodes h'⟩, ?_⟩
  intro g g' hg hg' t₀ t₀'
  have hd := Graph.describes_of_isOk hg
  have hd' := Graph.describes_of_isOk hg'
  obtain ⟨m⟩ := Graph.exists_transcoding hg hg' h
  obtain ⟨m'⟩ := Graph.exists_transcoding hg' hg h'
  refine ⟨⟨fun hok ↦ ?_, fun hok ↦ ?_⟩, ?_⟩
  · obtain ⟨t', hresolve', -⟩ := m.exists_resolve hd hd' (t := (g.resolve c t₀).1) (Prod.ext rfl hok)
    rw [hresolve']
  · obtain ⟨t, hresolve, -⟩ := m'.exists_resolve hd' hd (t := (g'.resolve c t₀').1) (Prod.ext rfl hok)
    rw [hresolve]
  intro t t' ht ht'
  have hresolves : m.Resolves t t' := by
    obtain ⟨t₁, hresolve, hresolves⟩ := m.exists_resolve hd hd' ht
    cases ht'.symm.trans (hresolve t₀')
    exact hresolves
  have hresolves' : m'.Resolves t' t := by
    obtain ⟨t₁, hresolve, hresolves⟩ := m'.exists_resolve hd' hd ht'
    cases ht.symm.trans (hresolve t₀)
    exact hresolves
  refine ⟨fun i i' hname ↦ ?_, ⟨hresolves.exists_compile hd hd', hresolves'.exists_compile hd' hd⟩, ?_⟩
  · obtain rfl : i' = m.index i := Graph.name_injective hg' (hname.trans (m.name_eq i).symm)
    obtain ⟨hformats, hsize⟩ := hresolves.retypes i
    exact ⟨hsize, hformats.get_eq (by rw [Op.quantizerAt_accum, Op.quantizerAt_accum]), fun p ↦ hformats.get_eq⟩
  intro p p' hp hp' row
  refine ⟨⟨fun ⟨out, hout⟩ ↦ ?_, fun ⟨out', hout'⟩ ↦ ?_⟩, fun out out' hout hout' ↦ ?_⟩
  · obtain ⟨xs, xs', -, hout', -⟩ := hresolves.exists_predictRow hd hd' hp hp' hout
    exact ⟨_, hout'⟩
  · obtain ⟨xs', xs, -, hout, -⟩ := hresolves'.exists_predictRow hd' hd hp' hp hout'
    exact ⟨_, hout⟩
  · obtain ⟨xs, xs', rfl, hsame, houtputs⟩ := hresolves.exists_predictRow hd hd' hp hp' hout
    cases hout'.symm.trans hsame
    exact houtputs.toFloat_eq

def voting (signs : String) : Description :=
  [⟨"data", [], .input 2⟩, ⟨"sign", ["data"], .activation signs⟩,
    ⟨"unit", ["sign"], .dense 2 [0.5, -1.25, -2, 3] none (some signs) none⟩,
    ⟨"both", ["sign", "unit"], .concatenate⟩, ⟨"vote", ["both"], .activation signs⟩]

def votingGraph (coded : Bool) : Graph where
  size := 5
  layers := #v[⟨"data", .input, [], 2⟩, ⟨"sign", .activation (.quantized (.signs coded)), [0], 2⟩,
    ⟨"unit", .dense 2 [0.5, -1.25, -2, 3] [0, 0] (some (.signs coded)) none, [1], 2⟩,
    ⟨"both", .concatenate, [1, 2], 4⟩, ⟨"vote", .activation (.quantized (.signs coded)), [3], 4⟩]
  order := [0, 1, 2, 3, 4]
  input := 0
  output := 4

def votingPlan (coded : Bool) : Plan where
  size := 5
  steps := [⟨"data", 0, [], .input default⟩, ⟨"sign", 1, [(0, false)], .activation (.sign !coded) (.signs coded)⟩,
    ⟨"unit", 2, [(1, coded)], .dense [⟨[.one, .minusOne], none, ⟨0, 10⟩⟩, ⟨[.minusOne, .one], none, ⟨0, 10⟩⟩]
      { total := 5, integer := 5, signed := true } default⟩,
    ⟨"both", 3, [(1, coded), (2, false)], .concatenate default⟩,
    ⟨"vote", 4, [(3, false)], .activation (.sign !coded) (.signs coded)⟩]
  output := 4
  inputFeatures := 2
  outputFeatures := 4

set_option maxRecDepth 20000 in
theorem ofDescription_voting : Graph.ofDescription (voting "binary()") = .ok (votingGraph true) ∧
    Graph.ofDescription (voting "binary_tanh") = .ok (votingGraph false) := ⟨rfl, rfl⟩

set_option maxRecDepth 20000 in
theorem compile_voting (coded : Bool) : ∃ t, (votingGraph coded).resolve {} (votingGraph coded).untyped = (t, .ok ()) ∧
    (votingGraph coded).compile t = .ok (votingPlan coded) := by
  cases coded <;> exact ⟨_, rfl, rfl⟩

theorem transcodes_voting :
    List.Forall₂ (LayerDescription.Transcodes {} true false) (voting "binary()") (voting "binary_tanh") := by
  have hleaves (name : String) (p : Slot) : Config.Leaves {} name p := by
    refine ⟨?_, ?_⟩ <;> rw [Config.scope_empty] <;> exact SlotMap.get_empty p
  exact .cons (.same _) (.cons (.activation (hleaves _ _) rfl rfl) (.cons (.kernel (hleaves _ _) rfl rfl)
    (.cons (.same _) (.cons (.activation (hleaves _ _) rfl rfl) .nil))))

theorem sign_codes_transparent_voting :
    List.Forall₂ (LayerDescription.Transcodes {} true false) (voting "binary()") (voting "binary_tanh") ∧
    (votingPlan true).predictRow [1.5, -2] = .ok [1, 0, 1, 0] ∧
    (votingPlan false).predictRow [1.5, -2] = .ok [1, -1, 1, -1] := by
  obtain ⟨hg, hg'⟩ := ofDescription_voting
  obtain ⟨t, ht, hp⟩ := compile_voting true
  obtain ⟨t', ht', hp'⟩ := compile_voting false
  have hout : (votingPlan true).predictRow [1.5, -2] = .ok [1, 0, 1, 0] := by decide +kernel
  obtain ⟨-, hnetworks⟩ := sign_codes_transparent {} transcodes_voting
  obtain ⟨-, hresolved⟩ := hnetworks _ _ hg hg' (votingGraph true).untyped (votingGraph false).untyped
  obtain ⟨-, -, hpredict⟩ := hresolved t t' ht ht'
  obtain ⟨hboth, hsame⟩ := hpredict _ _ hp hp' [1.5, -2]
  obtain ⟨out', hout'⟩ := hboth.mp ⟨_, hout⟩
  have hvalues := hsame _ _ hout hout'
  rw [if_neg (by decide)] at hvalues
  have hmap : ([1, 0, 1, 0] : List Float).map (fun v ↦ 2 * v - 1) = [1, -1, 1, -1] := by decide +kernel
  exact ⟨transcodes_voting, hout, by rw [hout', hvalues, hmap]⟩

end FixedNet

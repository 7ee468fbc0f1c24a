import FixedNet.Proofs.Inference.Steps
import FixedNet.Proofs.Quantizer.Tensor

namespace FixedNet

/-- A weight as it is kept: on its grid, or the value of a code that is. -/
def Format.IsWeight (f : Format) : Encoding → Fixed → Prop
  | .direct, w => w.OnGrid f
  | .xnor, w => ∃ c : Float, (c = 0 ∨ c = 1) ∧ w = (Fixed.mk (f.rawOfNumber c) f.frac).decoded

structure Neuron.OnGrids (u : Neuron) (formats : SlotMap Format) (encoding : Encoding) (inFeatures : ℕ) : Prop where
  weights : ∃ f, formats.get .weight = some f ∧ ∀ w ∈ u.weights, f.IsWeight encoding w
  length_le : u.weights.length ≤ inFeatures
  bias : ∃ f, formats.get .bias = some f ∧ u.bias.OnGrid f
  scale : ∀ s ∈ u.scale, ∃ f, formats.get .scale = some f ∧ s.OnGrid f

/-- The layers as they are compiled. -/
inductive Layer.Compiles {n : ℕ} (layer : Layer n) (formats : SlotMap Format) : Kernel → Prop
  | input {result : Format} (op : layer.op = .input) (hresult : formats.get .result = some result) :
      Compiles layer formats (.input result)
  | dense {inFeatures : ℕ} {weights bias : List Float} {kernelQuantizer biasQuantizer : Option Quantizer}
      {units : List Neuron} {accum result : Format}
      (op : layer.op = .dense inFeatures weights bias kernelQuantizer biasQuantizer)
      (haccum : formats.get .accum = some accum) (hresult : formats.get .result = some result)
      (hunits : ∀ u ∈ units,
        u.OnGrids formats ((kernelQuantizer.map Quantizer.encoding).getD .direct) inFeatures) :
      Compiles layer formats (.dense units accum result)
  | batchNorm {gains shifts : List Float} {channels : List (Fixed × Fixed)} {scale bias accum result : Format}
      (op : layer.op = .batchNorm gains shifts) (hscale : formats.get .scale = some scale)
      (hbias : formats.get .bias = some bias) (haccum : formats.get .accum = some accum)
      (hresult : formats.get .result = some result)
      (hchannels : ∀ c ∈ channels, c.1.OnGrid scale ∧ c.2.OnGrid bias) :
      Compiles layer formats (.batchNorm channels accum result)
  | activation {function : ActivationFunction} {result : Format} (op : layer.op = .activation function)
      (hresult : formats.get .result = some result) : Compiles layer formats (.activation function.shape result)
  | softmax {exp : ExpTable} {inv : InvTable} {expFormat invFormat accum result : Format} (op : layer.op = .softmax)
      (hexp : formats.get .expTable = some expFormat) (hinv : formats.get .invTable = some invFormat)
      (haccum : formats.get .accum = some accum) (hresult : formats.get .result = some result)
      (hexps : ∀ d, (exp.lookup d).OnGrid expFormat) (hinvs : ∀ s, (inv.lookup s).OnGrid invFormat) :
      Compiles layer formats (.softmax exp inv accum result)
  | add {accum result : Format} (op : layer.op = .add) (haccum : formats.get .accum = some accum)
      (hresult : formats.get .result = some result) : Compiles layer formats (.add accum result)
  | concatenate {result : Format} (op : layer.op = .concatenate) (hresult : formats.get .result = some result) :
      Compiles layer formats (.concatenate result)

theorem Fixed.OnGrid.withOverflow {f : Format} {o : Overflow} {x : Fixed} (h : x.OnGrid (f.withOverflow o)) :
    x.OnGrid f := ⟨h.frac_eq, h.inRange⟩

theorem mapM_of_tableEntries {f : Format} {size : ℕ} {sample : ℕ → Float} {entries : Array Fixed}
    (h : tableEntries f size sample = .ok entries) :
    (List.range size).mapM (fun i ↦ Fixed.ofFloat (f.withOverflow .saturate) (sample i)) = .ok entries.toList := by
  rw [← Array.toList_range, ← Array.toList_mapM]
  exact congrArg (Array.toList <$> ·) h

theorem onGrid_of_mem_tableEntries {f : Format} {size : ℕ} {sample : ℕ → Float} {entries : Array Fixed}
    (h : tableEntries f size sample = .ok entries) {x : Fixed} (hx : x ∈ entries) : x.OnGrid f := by
  obtain ⟨i, -, hi⟩ := exists_of_mem_mapM (mapM_of_tableEntries h) (Array.mem_toList_iff.mpr hx)
  exact (Fixed.onGrid_ofFloat hi).withOverflow

theorem size_of_tableEntries {f : Format} {size : ℕ} {sample : ℕ → Float} {entries : Array Fixed}
    (h : tableEntries f size sample = .ok entries) : entries.size = size := by
  have hlen := length_of_mapM (mapM_of_tableEntries h)
  rwa [Array.length_toList, List.length_range] at hlen

theorem toIndex_le (last : ℕ) (x : Float) : Binary64.toIndex last x ≤ last := by
  unfold Binary64.toIndex
  split
  · exact le_rfl
  · split
    · exact min_le_left _ _
    · exact le_rfl
  · exact Nat.zero_le last

theorem entryAt_mem {entries : Array Fixed} (h : entries.size ≠ 0) (position : Float) :
    entryAt entries position ∈ entries := by
  have hle := toIndex_le (entries.size - 1) (Binary64.roundWith .nearest position)
  have hlt : Binary64.toIndex (entries.size - 1) (Binary64.roundWith .nearest position) < entries.size := by omega
  rw [entryAt, ← Array.getElem_eq_getD (h := hlt)]
  exact Array.getElem_mem hlt

theorem ExpTable.onGrid_lookup {size : ℕ} {bits : ℤ} {f : Format} {exp : ExpTable} (hsize : size ≠ 0)
    (h : ExpTable.make size bits f = .ok exp) (d : Fixed) : (exp.lookup d).OnGrid f := by
  obtain ⟨entries, hentries, hexp⟩ := bind_eq_ok_iff.mp h
  cases pure_eq_ok_iff.mp hexp
  have hne : entries.size ≠ 0 := by rwa [size_of_tableEntries hentries]
  exact onGrid_of_mem_tableEntries hentries (entryAt_mem hne _)

theorem InvTable.onGrid_lookup {size : ℕ} {limit : Float} {f : Format} {inv : InvTable} (hsize : size ≠ 0)
    (h : InvTable.make size limit f = .ok inv) (s : Fixed) : (inv.lookup s).OnGrid f := by
  obtain ⟨entries, hentries, hinv⟩ := bind_eq_ok_iff.mp h
  cases pure_eq_ok_iff.mp hinv
  have hne : entries.size ≠ 0 := by rwa [size_of_tableEntries hentries]
  exact onGrid_of_mem_tableEntries hentries (entryAt_mem hne _)

namespace Quantizer

theorem selectSign_true (x : Float) : selectSign true x = 0 ∨ selectSign true x = 1 := by
  unfold selectSign
  split
  · exact .inr rfl
  · exact .inl rfl

theorem codes_of_encoding {q : Quantizer} (hq : q.encoding = .xnor) {channel : List Float}
    {projected : List Float × Float}
    (h : q.projectChannel channel = .ok projected) : ∀ c ∈ projected.1, c = 0 ∨ c = 1 := by
  have hproject (x : Float) : q.project x = 0 ∨ q.project x = 1 := by
    cases q with
    | uniform u =>
      rw [encoding] at hq
      split at hq
      · rw [project, Uniform.project, if_pos ‹_›]
        exact selectSign_true x
      · cases hq
    | ternary t => cases hq
    | binary b =>
      rw [encoding] at hq
      split at hq
      · rw [project, Binary.project, ‹b.xnor = true›]
        exact selectSign_true x
      · cases hq
  intro c hc
  unfold projectChannel at h
  split at h
  · split at h
    · cases h
      obtain ⟨x, -, rfl⟩ := List.mem_map.mp hc
      split
      · exact hproject _
      · exact hproject x
    · cases h
  · cases h
    obtain ⟨x, -, rfl⟩ := List.mem_map.mp hc
    exact hproject _
  · cases hq
  · cases h
    obtain ⟨x, -, rfl⟩ := List.mem_map.mp hc
    exact hproject x

theorem codes_of_projectTensor {q : Quantizer} (hq : q.encoding = .xnor) {values : List Float} {channels : ℕ}
    {t : CodedTensor} (h : q.projectTensor values channels = .ok t) : ∀ c ∈ t.codes, c = 0 ∨ c = 1 := by
  intro c hc
  obtain ⟨-, ⟨-, rfl⟩ | ⟨-, projected, hprojected, rfl⟩⟩ := projectTensor_eq_ok_iff.mp h
  · cases hc
  · obtain ⟨p, hp, hcp⟩ := List.mem_flatMap.mp hc
    obtain ⟨channel, -, hchannel⟩ := exists_of_mem_mapM hprojected hp
    exact codes_of_encoding hq hchannel c hcp

end Quantizer

namespace Layer

variable {n : ℕ} {layer : Layer n} {formats : SlotMap Format}

theorem formatAt_eq_ok_iff {p : Slot} {f : Format} : layer.formatAt formats p = .ok f ↔ formats.get p = some f := by
  unfold formatAt
  cases formats.get p <;> simp

theorem exists_of_mem_snap {parameter : String} {values : List Float} {f : Format} {xs : List Fixed}
    (h : layer.snap parameter values f = .ok xs) : ∀ x ∈ xs, ∃ c ∈ values, Fixed.ofFloat f c = .ok x := by
  obtain ⟨_, -, h⟩ := bind_eq_ok_iff.mp h
  exact fun x hx ↦ exists_of_mem_mapM (mapError_eq_ok_iff.mp h) hx

theorem exists_of_compileWeights {weights : List Float} {q : Quantizer} {values : List Fixed}
    {scales : List (Option Fixed)} (h : layer.compileWeights formats weights (some q) = .ok (values, scales)) :
    ∃ f tensor codes, formats.get .weight = some f ∧ q.projectTensor weights layer.features = .ok tensor ∧
      layer.snap "weights" tensor.codes f = .ok codes ∧
      ((q.encoding = .direct ∧ values = codes) ∨ q.encoding = .xnor ∧ codes.mapM Fixed.decodeBipolar = .ok values) ∧
      (scales = List.replicate layer.features none ∨ ∃ f' snapped, formats.get .scale = some f' ∧
        layer.snap "scale" tensor.scales f' = .ok snapped ∧ scales = snapped.map some) := by
  obtain ⟨f, hf, h⟩ := bind_eq_ok_iff.mp h
  obtain ⟨_, -, h⟩ := bind_eq_ok_iff.mp h
  obtain ⟨tensor, htensor, h⟩ := bind_eq_ok_iff.mp h
  obtain ⟨codes, hcodes, h⟩ := bind_eq_ok_iff.mp h
  let finish (values : List Fixed) : Except CompileError (List Fixed × List (Option Fixed)) :=
    if layer.op.hasKernelScale then do
      let scales ← layer.snap "scale" tensor.scales (← layer.formatAt formats .scale)
      return (values, scales.map some)
    else return (values, List.replicate layer.features none)
  have hfinish : ∃ decoded, ((q.encoding = .direct ∧ decoded = codes) ∨
      q.encoding = .xnor ∧ codes.mapM Fixed.decodeBipolar = .ok decoded) ∧ finish decoded = .ok (values, scales) := by
    cases hq : q.encoding with
    | direct =>
      rw [hq] at h
      obtain ⟨decoded, hdecoded, h⟩ := bind_eq_ok_iff.mp h
      cases pure_eq_ok_iff.mp hdecoded
      exact ⟨codes, .inl ⟨rfl, rfl⟩, h⟩
    | xnor =>
      rw [hq] at h
      obtain ⟨decoded, hdecoded, h⟩ := bind_eq_ok_iff.mp h
      exact ⟨decoded, .inr ⟨rfl, mapError_eq_ok_iff.mp hdecoded⟩, h⟩
  obtain ⟨decoded, hdecoded, h⟩ := hfinish
  refine ⟨f, tensor, codes, formatAt_eq_ok_iff.mp hf, mapError_eq_ok_iff.mp htensor, hcodes, ?_⟩
  dsimp only [finish] at h
  split at h
  · obtain ⟨f', hf', h⟩ := bind_eq_ok_iff.mp h
    obtain ⟨snapped, hsnapped, h⟩ := bind_eq_ok_iff.mp h
    cases pure_eq_ok_iff.mp h
    exact ⟨hdecoded, .inr ⟨f', snapped, formatAt_eq_ok_iff.mp hf', hsnapped, rfl⟩⟩
  · cases pure_eq_ok_iff.mp h
    exact ⟨hdecoded, .inl rfl⟩

theorem isWeight_of_compileWeights {weights : List Float} {kernelQuantizer : Option Quantizer} {values : List Fixed}
    {scales : List (Option Fixed)} (h : layer.compileWeights formats weights kernelQuantizer = .ok (values, scales)) :
    (∃ f, formats.get .weight = some f ∧
      ∀ w ∈ values, f.IsWeight ((kernelQuantizer.map Quantizer.encoding).getD .direct) w) ∧
    ∀ s ∈ scales, ∀ x ∈ s, ∃ f, formats.get .scale = some f ∧ x.OnGrid f := by
  have hunscaled : ∀ s ∈ List.replicate layer.features (none : Option Fixed), ∀ x ∈ s,
      ∃ f, formats.get .scale = some f ∧ x.OnGrid f := by
    intro s hs
    rw [List.eq_of_mem_replicate hs]
    simp
  cases kernelQuantizer with
  | none =>
    obtain ⟨f, hf, h⟩ := bind_eq_ok_iff.mp h
    obtain ⟨_, -, h⟩ := bind_eq_ok_iff.mp h
    obtain ⟨values, hvalues, h⟩ := bind_eq_ok_iff.mp h
    cases pure_eq_ok_iff.mp h
    refine ⟨⟨f, formatAt_eq_ok_iff.mp hf, fun w hw ↦ ?_⟩, hunscaled⟩
    obtain ⟨c, -, hc⟩ := exists_of_mem_snap hvalues w hw
    exact Fixed.onGrid_ofFloat hc
  | some q =>
    obtain ⟨f, tensor, codes, hf, htensor, hcodes, hvalues, hscales⟩ := exists_of_compileWeights h
    refine ⟨⟨f, hf, fun w hw ↦ ?_⟩, ?_⟩
    · rw [Option.map_some, Option.getD_some]
      rcases hvalues with ⟨hq, rfl⟩ | ⟨hq, hvalues⟩
      · obtain ⟨c, -, hc⟩ := exists_of_mem_snap hcodes w hw
        rw [hq]
        exact Fixed.onGrid_ofFloat hc
      · obtain ⟨x, hx, hxw⟩ := exists_of_mem_mapM hvalues hw
        obtain ⟨c, hc, hcx⟩ := exists_of_mem_snap hcodes x hx
        rw [hq]
        refine ⟨c, Quantizer.codes_of_projectTensor hq htensor c hc, ?_⟩
        rw [← (Fixed.ofFloat_eq_ok_iff.mp hcx).2]
        exact Fixed.eq_decoded hxw
    · rcases hscales with rfl | ⟨f', snapped, hf', hsnapped, rfl⟩
      · exact hunscaled
      · intro s hs x hx
        obtain ⟨y, hy, rfl⟩ := List.mem_map.mp hs
        cases hx
        obtain ⟨c, -, hc⟩ := exists_of_mem_snap hsnapped _ hy
        exact ⟨f', hf', Fixed.onGrid_ofFloat hc⟩

theorem onGrid_of_compileBias {bias : List Float} {biasQuantizer : Option Quantizer} {compiled : List Fixed}
    (h : layer.compileBias formats bias biasQuantizer = .ok compiled) :
    ∃ f, formats.get .bias = some f ∧ ∀ x ∈ compiled, x.OnGrid f := by
  obtain ⟨f, hf, h⟩ := bind_eq_ok_iff.mp h
  obtain ⟨_, -, h⟩ := bind_eq_ok_iff.mp h
  refine ⟨f, formatAt_eq_ok_iff.mp hf, fun x hx ↦ ?_⟩
  cases biasQuantizer with
  | none =>
    obtain ⟨c, -, hc⟩ := exists_of_mem_snap h x hx
    exact Fixed.onGrid_ofFloat hc
  | some q =>
    obtain ⟨tensor, -, h⟩ := bind_eq_ok_iff.mp h
    obtain ⟨c, -, hc⟩ := exists_of_mem_snap h x hx
    exact Fixed.onGrid_ofFloat hc

theorem mem_of_mem_assembleUnits {weights : List (List Fixed)} {scales : List (Option Fixed)} {bias : List Fixed}
    {u : Neuron} (h : u ∈ assembleUnits weights scales bias) :
    u.weights ∈ weights ∧ u.scale ∈ scales ∧ u.bias ∈ bias := by
  induction weights generalizing scales bias with
  | nil => cases h
  | cons w weights ih =>
    cases scales with
    | nil => cases h
    | cons s scales =>
      cases bias with
      | nil => cases h
      | cons b bias =>
        rcases List.mem_cons.mp h with rfl | h
        · simp
        · obtain ⟨hw, hs, hb⟩ := ih h
          exact ⟨List.mem_cons_of_mem w hw, List.mem_cons_of_mem s hs, List.mem_cons_of_mem b hb⟩

/-- What goes into the kernel of a layer. A softmax layer has tables of the given size, made for inputs of the given
bits. -/
inductive Assembles (layer : Layer n) (formats : SlotMap Format) (size : ℕ) (inputBits : Except CompileError ℤ) :
    Kernel → Prop
  | input {result : Format} (op : layer.op = .input) (hresult : formats.get .result = some result) :
      Assembles layer formats size inputBits (.input result)
  | dense {inFeatures : ℕ} {weights bias : List Float} {kernelQuantizer biasQuantizer : Option Quantizer}
      {values biases : List Fixed} {scales : List (Option Fixed)} {accum result : Format}
      (op : layer.op = .dense inFeatures weights bias kernelQuantizer biasQuantizer)
      (hweights : layer.compileWeights formats weights kernelQuantizer = .ok (values, scales))
      (hbias : layer.compileBias formats bias biasQuantizer = .ok biases) (haccum : formats.get .accum = some accum)
      (hresult : formats.get .result = some result) :
      Assembles layer formats size inputBits
        (.dense (assembleUnits (Quantizer.stretches inFeatures layer.features values) scales biases) accum result)
  | batchNorm {gains shifts : List Float} {xs ys : List Fixed} {scale bias accum result : Format}
      (op : layer.op = .batchNorm gains shifts) (hscale : formats.get .scale = some scale)
      (hgains : layer.snap "scale" gains scale = .ok xs) (hbias : formats.get .bias = some bias)
      (hshifts : layer.snap "shift" shifts bias = .ok ys) (haccum : formats.get .accum = some accum)
      (hresult : formats.get .result = some result) :
      Assembles layer formats size inputBits (.batchNorm (xs.zip ys) accum result)
  | activation {function : ActivationFunction} {result : Format} (op : layer.op = .activation function)
      (hresult : formats.get .result = some result) :
      Assembles layer formats size inputBits (.activation function.shape result)
  | softmax {bits : ℤ} {exp : ExpTable} {inv : InvTable} {expFormat invFormat accum result : Format}
      (op : layer.op = .softmax) (hsize : size ≠ 0) (hbits : inputBits = .ok bits)
      (hexpFormat : formats.get .expTable = some expFormat) (hexp : ExpTable.make size bits expFormat = .ok exp)
      (hinvFormat : formats.get .invTable = some invFormat)
      (hinv : InvTable.make size (Binary64.ofInt layer.features) invFormat = .ok inv)
      (haccum : formats.get .accum = some accum) (hresult : formats.get .result = some result) :
      Assembles layer formats size inputBits (.softmax exp inv accum result)
  | add {accum result : Format} (op : layer.op = .add) (haccum : formats.get .accum = some accum)
      (hresult : formats.get .result = some result) : Assembles layer formats size inputBits (.add accum result)
  | concatenate {result : Format} (op : layer.op = .concatenate) (hresult : formats.get .result = some result) :
      Assembles layer formats size inputBits (.concatenate result)

/-- The parameters that a layer is assembled from lie on their grids. -/
theorem Assembles.compiles {size : ℕ} {inputBits : Except CompileError ℤ} {k : Kernel}
    (h : layer.Assembles formats size inputBits k) : layer.Compiles formats k := by
  cases h with
  | input op hresult => exact .input op hresult
  | @dense inFeatures _ _ _ _ values biases scales _ _ op hweights hbias haccum hresult =>
    obtain ⟨⟨f, hf, hgrid⟩, hscales⟩ := isWeight_of_compileWeights hweights
    obtain ⟨f', hf', hgrid'⟩ := onGrid_of_compileBias hbias
    refine .dense op haccum hresult fun u hu ↦ ?_
    obtain ⟨hw, hs, hb⟩ := mem_of_mem_assembleUnits hu
    obtain ⟨hlength, hmem⟩ := Quantizer.mem_of_mem_stretches hw
    exact ⟨⟨f, hf, fun w hw ↦ hgrid w (hmem w hw)⟩, hlength, ⟨f', hf', hgrid' _ hb⟩, hscales _ hs⟩
  | batchNorm op hscale hgains hbias hshifts haccum hresult =>
    refine .batchNorm op hscale hbias haccum hresult fun c hc ↦ ?_
    obtain ⟨hx, hy⟩ := List.of_mem_zip hc
    obtain ⟨x, -, hx⟩ := exists_of_mem_snap hgains _ hx
    obtain ⟨y, -, hy⟩ := exists_of_mem_snap hshifts _ hy
    exact ⟨Fixed.onGrid_ofFloat hx, Fixed.onGrid_ofFloat hy⟩
  | activation op hresult => exact .activation op hresult
  | softmax op hsize _ hexpFormat hexp hinvFormat hinv haccum hresult =>
    exact .softmax op hexpFormat hinvFormat haccum hresult (ExpTable.onGrid_lookup hsize hexp)
      (InvTable.onGrid_lookup hsize hinv)
  | add op haccum hresult => exact .add op haccum hresult
  | concatenate op hresult => exact .concatenate op hresult

end Layer

namespace Graph

variable {g : Graph} {t : Typing g} {i : Fin g.size}

/-- What goes into the kernel of a softmax layer. -/
theorem compileSoftmax_eq_ok_iff {k : Kernel} : g.compileSoftmax t i = .ok k ↔
    (t.get i).tableSize ≠ 0 ∧ ∃ bits f exp f' inv accum result, g.softmaxInputBits t i = .ok bits ∧
      (t.get i).formats.get .expTable = some f ∧ ExpTable.make (t.get i).tableSize bits f = .ok exp ∧
      (t.get i).formats.get .invTable = some f' ∧
      InvTable.make (t.get i).tableSize (Binary64.ofInt (g.layer i).features) f' = .ok inv ∧
      (t.get i).formats.get .accum = some accum ∧ (t.get i).formats.get .result = some result ∧
      k = .softmax exp inv accum result := by
  unfold compileSoftmax
  dsimp only
  constructor
  · intro h
    split at h
    · cases h
    case isFalse hsize =>
      obtain ⟨bits, hbits, h⟩ := bind_eq_ok_iff.mp h
      obtain ⟨f, hf, h⟩ := bind_eq_ok_iff.mp h
      obtain ⟨exp, hexp, h⟩ := bind_eq_ok_iff.mp h
      obtain ⟨f', hf', h⟩ := bind_eq_ok_iff.mp h
      obtain ⟨inv, hinv, h⟩ := bind_eq_ok_iff.mp h
      obtain ⟨accum, haccum, h⟩ := bind_eq_ok_iff.mp h
      obtain ⟨result, hresult, h⟩ := bind_eq_ok_iff.mp h
      exact ⟨hsize, bits, f, exp, f', inv, accum, result, hbits, Layer.formatAt_eq_ok_iff.mp hf,
        mapError_eq_ok_iff.mp hexp, Layer.formatAt_eq_ok_iff.mp hf', mapError_eq_ok_iff.mp hinv,
        Layer.formatAt_eq_ok_iff.mp haccum, Layer.formatAt_eq_ok_iff.mp hresult, (pure_eq_ok_iff.mp h).symm⟩
  · rintro ⟨hsize, bits, f, exp, f', inv, accum, result, hbits, hf, hexp, hf', hinv, haccum, hresult, rfl⟩
    rw [if_neg hsize]
    refine bind_eq_ok_iff.mpr ⟨bits, hbits, ?_⟩
    refine bind_eq_ok_iff.mpr ⟨f, Layer.formatAt_eq_ok_iff.mpr hf, ?_⟩
    refine bind_eq_ok_iff.mpr ⟨exp, mapError_eq_ok_iff.mpr hexp, ?_⟩
    refine bind_eq_ok_iff.mpr ⟨f', Layer.formatAt_eq_ok_iff.mpr hf', ?_⟩
    refine bind_eq_ok_iff.mpr ⟨inv, mapError_eq_ok_iff.mpr hinv, ?_⟩
    refine bind_eq_ok_iff.mpr ⟨accum, Layer.formatAt_eq_ok_iff.mpr haccum, ?_⟩
    exact bind_eq_ok_iff.mpr ⟨result, Layer.formatAt_eq_ok_iff.mpr hresult, rfl⟩

/-- Everything that compiling a layer does, case by case. -/
theorem assembles_of_compileKernel {k : Kernel} (h : g.compileKernel t i = .ok k) :
    (g.layer i).Assembles (t.get i).formats (t.get i).tableSize (g.softmaxInputBits t i) k := by
  unfold compileKernel at h
  dsimp only at h
  split at h
  case h_1 op =>
    obtain ⟨result, hresult, h⟩ := bind_eq_ok_iff.mp h
    cases pure_eq_ok_iff.mp h
    exact .input op (Layer.formatAt_eq_ok_iff.mp hresult)
  case h_2 op =>
    obtain ⟨⟨values, scales⟩, hweights, h⟩ := bind_eq_ok_iff.mp h
    obtain ⟨biases, hbias, h⟩ := bind_eq_ok_iff.mp h
    obtain ⟨accum, haccum, h⟩ := bind_eq_ok_iff.mp h
    obtain ⟨result, hresult, h⟩ := bind_eq_ok_iff.mp h
    cases pure_eq_ok_iff.mp h
    exact .dense op hweights hbias (Layer.formatAt_eq_ok_iff.mp haccum) (Layer.formatAt_eq_ok_iff.mp hresult)
  case h_3 op =>
    obtain ⟨scale, hscale, h⟩ := bind_eq_ok_iff.mp h
    obtain ⟨xs, hxs, h⟩ := bind_eq_ok_iff.mp h
    obtain ⟨bias, hbias, h⟩ := bind_eq_ok_iff.mp h
    obtain ⟨ys, hys, h⟩ := bind_eq_ok_iff.mp h
    obtain ⟨accum, haccum, h⟩ := bind_eq_ok_iff.mp h
    obtain ⟨result, hresult, h⟩ := bind_eq_ok_iff.mp h
    cases pure_eq_ok_iff.mp h
    exact .batchNorm op (Layer.formatAt_eq_ok_iff.mp hscale) hxs (Layer.formatAt_eq_ok_iff.mp hbias) hys
      (Layer.formatAt_eq_ok_iff.mp haccum) (Layer.formatAt_eq_ok_iff.mp hresult)
  case h_4 op =>
    obtain ⟨result, hresult, h⟩ := bind_eq_ok_iff.mp h
    cases pure_eq_ok_iff.mp h
    exact .activation op (Layer.formatAt_eq_ok_iff.mp hresult)
  case h_5 op =>
    obtain ⟨hsize, bits, f, exp, f', inv, accum, result, hbits, hf, hexp, hf', hinv, haccum, hresult, rfl⟩ :=
      compileSoftmax_eq_ok_iff.mp h
    exact .softmax op hsize hbits hf hexp hf' hinv haccum hresult
  case h_6 op =>
    obtain ⟨accum, haccum, h⟩ := bind_eq_ok_iff.mp h
    obtain ⟨result, hresult, h⟩ := bind_eq_ok_iff.mp h
    cases pure_eq_ok_iff.mp h
    exact .add op (Layer.formatAt_eq_ok_iff.mp haccum) (Layer.formatAt_eq_ok_iff.mp hresult)
  case h_7 op =>
    obtain ⟨result, hresult, h⟩ := bind_eq_ok_iff.mp h
    cases pure_eq_ok_iff.mp h
    exact .concatenate op (Layer.formatAt_eq_ok_iff.mp hresult)

structure IsStep (g : Graph) (t : Typing g) (i : Fin g.size) (s : Step g.size) : Prop where
  name_eq : s.name = (g.layer i).name
  index_eq : s.index = i
  inputs_eq : s.inputs = (g.layer i).inputs.map fun j ↦ (j, decide ((g.layer j).op.encoding = .xnor))
  compiles : (g.layer i).Compiles (t.get i).formats s.kernel

theorem isStep_of_compileStep {s : Step g.size} (h : g.compileStep t i = .ok s) : g.IsStep t i s := by
  obtain ⟨k, hk, h⟩ := bind_eq_ok_iff.mp h
  cases pure_eq_ok_iff.mp h
  exact ⟨rfl, rfl, rfl, (assembles_of_compileKernel hk).compiles⟩

/-- A plan has a step for each layer along the order. -/
theorem forall₂_isStep {steps : List (Step g.size)} (h : g.order.mapM (g.compileStep t) = .ok steps) :
    List.Forall₂ (g.IsStep t) g.order steps := (mapM_eq_ok_iff.mp h).imp fun _ _ ↦ isStep_of_compileStep

theorem exists_steps_of_compile {p : Plan} (h : g.compile t = .ok p) : ∃ steps,
    List.Forall₂ (g.IsStep t) g.order steps ∧ p = ⟨g.size, steps, g.output, g.inputFeatures, g.outputFeatures⟩ := by
  unfold compile at h
  split at h
  · cases h
  · obtain ⟨steps, hsteps, h⟩ := bind_eq_ok_iff.mp h
    cases pure_eq_ok_iff.mp h
    exact ⟨steps, forall₂_isStep hsteps, rfl⟩

end Graph

end FixedNet

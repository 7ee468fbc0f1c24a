import FixedNet.Proofs.Network.Shapes
import FixedNet.Proofs.Simulation.Library
import FixedNet.Proofs.Text.Pieces
import FixedNet.Simulation.Basic

namespace FixedNet

theorem Quantizer.read_trim {text : String} {q : Quantizer} (h : read text = .ok q) :
    read (String.ofList (Text.trim text.toList)) = .ok q := by
  unfold read at h ⊢
  have hcall : Call.read? (String.ofList (Text.trim text.toList)) = Call.read? text := by
    unfold Call.read?
    rw [String.toList_ofList, Text.trim_trim]
  rw [hcall]
  split at h
  · exact h
  · cases h

variable {T : TensorLibrary}

def TensorLibrary.parametersUnder (T : TensorLibrary) (q : Option Quantizer) (values : List Float) (m n : ℕ) :
    Except T.Refusal T.Tensor := do
  let w ← T.fromList values [m, n]
  q.elim (.ok w) fun q ↦ T.parameters q w

/-- The operation of a layer of some width, and the one that simulates it: parameters are the same numbers, in
rows, under the same quantizers. -/
inductive Op.SimulatedBy (T : TensorLibrary) (width : ℕ) : Op → SimulatedOp T → Prop
  | input : SimulatedBy T width .input .input
  | dense {inFeatures : ℕ} {weights bias : List Float} {kernelQuantizer biasQuantizer : Option Quantizer}
      {weight column row : T.Tensor} (kernel : T.parametersUnder kernelQuantizer weights width inFeatures = .ok weight)
      (biases : T.parametersUnder biasQuantizer bias width 1 = .ok column) (flat : T.flatten column = .ok row)
      (weight_dims : T.dims weight = [width, inFeatures]) (row_dims : T.dims row = [width]) :
      SimulatedBy T width (.dense inFeatures weights bias kernelQuantizer biasQuantizer) (.dense weight row)
  | batchNorm {gamma beta mean variance : List Float} {gamma' beta' mean' variance' : T.Tensor} {epsilon : Float}
      {channels : List (Float × Float)} (fold : LayerKind.foldChannels epsilon gamma beta mean variance = .ok channels)
      (gammas : T.fromList gamma [1, width] = .ok gamma') (betas : T.fromList beta [1, width] = .ok beta')
      (means : T.fromList mean [1, width] = .ok mean') (variances : T.fromList variance [1, width] = .ok variance') :
      SimulatedBy T width (.batchNorm (channels.map Prod.fst) (channels.map Prod.snd))
        (.batchNorm gamma' beta' mean' variance' epsilon)
  | activation (function : ActivationFunction) : SimulatedBy T width (.activation function) (.activation function)
  | softmax : SimulatedBy T width .softmax .softmax
  | add : SimulatedBy T width .add .add
  | concatenate : SimulatedBy T width .concatenate .concatenate

/-- The library reduces parameters of these sizes: the weights unit by unit, and the biases. -/
def Op.ReducedBy (op : Op) (T : TensorLibrary) (width : ℕ) : Prop :=
  ∀ {inFeatures weights bias kernelQuantizer biasQuantizer},
    op = .dense inFeatures weights bias kernelQuantizer biasQuantizer → T.Reduces width inFeatures ∧ T.Reduces width 1

namespace TensorLibrary.Lawful

variable (hT : T.Lawful)

include hT

theorem parametersUnder (q : Option Quantizer) {values : List Float} {m n : ℕ}
    (h : word64 values.length = word64 (m * n))
    (hreduces : T.Reduces m n) : Gives T.dims (T.parametersUnder q values m n) [m, n] := by
  refine (hT.fromList values m n h).bind fun w hw ↦ ?_
  cases q with
  | none => exact ⟨w, rfl, hw⟩
  | some q => exact hT.parameters q hreduces hw

end TensorLibrary.Lawful

namespace LayerDescription

variable {layer : LayerDescription}

theorem simulateParameters_of_readOptional {text : Option String} {q : Option Quantizer}
    (hq : LayerKind.readOptional text = .ok q) {values : List Float} {m n : ℕ} {w : T.Tensor}
    (h : T.parametersUnder q values m n = .ok w) : layer.simulateParameters text values m n = .ok w := by
  obtain ⟨w', hw', h⟩ := bind_eq_ok_iff.mp h
  refine bind_eq_ok_iff.mpr ⟨w', mapError_eq_ok_iff.mpr hw', ?_⟩
  cases text with
  | none =>
    cases hq
    cases h
    rfl
  | some text =>
    obtain ⟨q, hread, hq⟩ := map_eq_ok_iff.mp hq
    cases hq
    refine bind_eq_ok_iff.mpr ⟨q, mapError_eq_ok_iff.mpr (LayerKind.readQuantizer_eq_ok_iff.mp hread), ?_⟩
    exact mapError_eq_ok_iff.mpr h

theorem read_function {q : Quantizer} :
    Quantizer.read "linear" ≠ .ok q ∧ Quantizer.read "relu" ≠ .ok q ∧ Quantizer.read "softmax" ≠ .ok q := by
  refine ⟨?_, ?_, ?_⟩ <;> rintro ⟨⟩

theorem simulateActivation_of_readActivation (layer : LayerDescription) {function : String} {op : Op}
    (h : LayerKind.readActivation function = .ok op) (width : ℕ) :
    ∃ op', layer.simulateActivation function = .ok op' ∧ op.SimulatedBy T width op' := by
  unfold LayerKind.readActivation at h
  split at h
  · cases h
    exact ⟨_, rfl, .activation _⟩
  · cases h
    exact ⟨_, rfl, .activation _⟩
  · cases h
    exact ⟨_, rfl, .softmax⟩
  · obtain ⟨q, hq, h⟩ := bind_eq_ok_iff.mp h
    obtain ⟨u, hcheck, h⟩ := bind_eq_ok_iff.mp h
    cases pure_eq_ok_iff.mp h
    have hread := Quantizer.read_trim (LayerKind.readQuantizer_eq_ok_iff.mp hq)
    refine ⟨.activation (.quantized q), ?_, .activation _⟩
    unfold simulateActivation
    generalize String.ofList (Text.trim function.toList) = text at hread
    split
    · exact absurd hread read_function.1
    · exact absurd hread read_function.2.1
    · exact absurd hread read_function.2.2
    · refine bind_eq_ok_iff.mpr ⟨q, mapError_eq_ok_iff.mpr hread, bind_eq_ok_iff.mpr ⟨u, ?_, rfl⟩⟩
      exact mapError_eq_ok_iff.mpr (mapError_eq_ok_iff.mp hcheck)

theorem simulateDense_of_build (hT : T.Lawful) (layer : LayerDescription) {units width inFeatures : ℕ}
    {weights : List Float} {bias : Option (List Float)} {kernel biases : Option String} {op : Op}
    (h : (LayerKind.dense units weights bias kernel biases).build [inFeatures] = .ok (op, width))
    (hweights : T.Reduces width inFeatures) (hbiases : T.Reduces width 1) : width = units ∧ ∃ op',
      layer.simulateDense inFeatures units weights bias kernel biases = .ok op' ∧ op.SimulatedBy T width op' := by
  obtain ⟨_, q, q', hwidth, hunits, hcount, hbias, hq, hq', rfl, rfl⟩ := LayerKind.build_dense_eq_ok_iff.mp h
  cases hwidth
  obtain ⟨weight, hweight, hdims⟩ := hT.parametersUnder q (by rw [hcount, word64, word64, Nat.mod_mod]) hweights
  obtain ⟨column, hcolumn, hcolumnDims⟩ := hT.parametersUnder q' (by rw [hbias, mul_one]) hbiases
  obtain ⟨row, hrow, hrowDims⟩ := hT.flatten column units hcolumnDims
  refine ⟨rfl, .dense weight row, ?_, .dense hweight hcolumn hrow hdims hrowDims⟩
  unfold simulateDense
  dsimp only
  rw [if_neg (not_ne_iff.mpr hcount)]
  refine bind_eq_ok_iff.mpr ⟨weight, simulateParameters_of_readOptional hq hweight, ?_⟩
  rw [if_neg (not_ne_iff.mpr hbias)]
  refine bind_eq_ok_iff.mpr ⟨column, simulateParameters_of_readOptional hq' hcolumn, ?_⟩
  exact bind_eq_ok_iff.mpr ⟨row, mapError_eq_ok_iff.mpr hrow, rfl⟩

theorem simulateRow_of_fromList {values : List Float} {width : ℕ} {x : T.Tensor} (h : values.length = width)
    (hx : T.fromList values [1, width] = .ok x) : layer.simulateRow width values = .ok x := by
  unfold simulateRow
  rw [if_pos h]
  exact mapError_eq_ok_iff.mpr hx

theorem simulateOp_of_batchNorm (hT : T.Lawful) {gamma beta mean variance : List Float} {epsilon : Float} {width : ℕ}
    {channels : List (Float × Float)} (hkind : layer.kind = .batchNorm gamma beta mean variance epsilon)
    (hg : gamma.length = width) (hb : beta.length = width) (hm : mean.length = width) (hv : variance.length = width)
    (hchannels : LayerKind.foldChannels epsilon gamma beta mean variance = .ok channels) (hasInput : Bool) :
    ∃ op', layer.simulateOp hasInput [width] = .ok (op', width) ∧
      (Op.batchNorm (channels.map Prod.fst) (channels.map Prod.snd)).SimulatedBy T width op' := by
  have hrow (values : List Float) (h : values.length = width) : ∃ x, T.fromList values [1, width] = .ok x := by
    obtain ⟨x, hx, -⟩ := hT.fromList values 1 width (by rw [h, one_mul])
    exact ⟨x, hx⟩
  obtain ⟨gamma', hgamma⟩ := hrow gamma hg
  obtain ⟨beta', hbeta⟩ := hrow beta hb
  obtain ⟨mean', hmean⟩ := hrow mean hm
  obtain ⟨variance', hvariance⟩ := hrow variance hv
  refine ⟨.batchNorm gamma' beta' mean' variance' epsilon, ?_, .batchNorm hchannels hgamma hbeta hmean hvariance⟩
  unfold simulateOp
  rw [hkind]
  refine bind_eq_ok_iff.mpr ⟨gamma', simulateRow_of_fromList hg hgamma, ?_⟩
  refine bind_eq_ok_iff.mpr ⟨beta', simulateRow_of_fromList hb hbeta, ?_⟩
  refine bind_eq_ok_iff.mpr ⟨mean', simulateRow_of_fromList hm hmean, ?_⟩
  exact bind_eq_ok_iff.mpr ⟨variance', simulateRow_of_fromList hv hvariance, rfl⟩

theorem simulateOp_of_build (hT : T.Lawful) {widths : List ℕ} {op : Op} {width : ℕ}
    (h : layer.kind.build widths = .ok (op, width))
    (hreduces : op.ReducedBy T width) {hasInput : Bool}
    (hinput : layer.kind.isInput = true → hasInput = false) :
    ∃ op', layer.simulateOp hasInput widths = .ok (op', width) ∧ op.SimulatedBy T width op' := by
  have hbuilds := LayerKind.build_eq_ok_iff.mp h
  generalize hkind : layer.kind = kind at hbuilds
  cases hbuilds with
  | input =>
    rw [hkind] at hinput
    cases hinput rfl
    exact ⟨.input, by rw [simulateOp, hkind]; rfl, .input⟩
  | dense =>
    rw [hkind] at h
    obtain ⟨hweights, hbiases⟩ := hreduces rfl
    obtain ⟨-, op', hop', hsimulated⟩ := layer.simulateDense_of_build hT h hweights hbiases
    refine ⟨op', ?_, hsimulated⟩
    rw [simulateOp, hkind]
    exact bind_eq_ok_iff.mpr ⟨op', hop', rfl⟩
  | batchNorm hg hb hm hv hchannels => exact simulateOp_of_batchNorm hT hkind hg hb hm hv hchannels hasInput
  | activation hop =>
    obtain ⟨op', hop', hsimulated⟩ := layer.simulateActivation_of_readActivation (T := T) hop width
    refine ⟨op', ?_, hsimulated⟩
    rw [simulateOp, hkind]
    exact bind_eq_ok_iff.mpr ⟨op', hop', rfl⟩
  | softmax => exact ⟨.softmax, by rw [simulateOp, hkind]; rfl, .softmax⟩
  | add several equal =>
    obtain ⟨w, rest, rfl⟩ := List.exists_cons_of_length_pos (by omega : 0 < widths.length)
    obtain rfl := equal w List.mem_cons_self
    have hall : (w :: rest).all (· = w) = true := List.all_eq_true.mpr fun w' hw' ↦ decide_eq_true (equal w' hw')
    exact ⟨.add, by rw [simulateOp, hkind]; exact if_pos hall, .add⟩
  | concatenate =>
    refine ⟨.concatenate, ?_, .concatenate⟩
    rw [simulateOp, hkind]
    dsimp only
    rw [LayerKind.foldl_word64]

end LayerDescription

end FixedNet

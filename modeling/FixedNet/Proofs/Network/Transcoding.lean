import FixedNet.Precision.Config
import FixedNet.Proofs.Network.Matching

namespace FixedNet

def Quantizer.signs (coded : Bool) : Quantizer := .binary { xnor := coded }

theorem Config.scope_some (c : Config) (name : String) : c.scope (some name) = c.layers[name]?.getD {} := rfl

/-- No scope overrides the slot of the layer. -/
structure Config.Leaves (c : Config) (name : String) (p : Slot) : Prop where
  model : (c.scope none).overrides.get p = none
  own : (c.scope (some name)).overrides.get p = none

/-- The same layer, or one whose kernel or result takes the other quantizer of signs, where no scope overrides that. -/
inductive LayerDescription.Transcodes (c : Config) (coded coded' : Bool) : LayerDescription → LayerDescription → Prop
  | same (layer : LayerDescription) : Transcodes c coded coded' layer layer
  | kernel {name text text' : String} {inputs : List String} {units : ℕ} {weights : List Float}
      {bias : Option (List Float)} {biases : Option String} (hleaves : c.Leaves name .weight)
      (htext : Quantizer.read text = .ok (.signs coded)) (htext' : Quantizer.read text' = .ok (.signs coded')) :
      Transcodes c coded coded' ⟨name, inputs, .dense units weights bias (some text) biases⟩
        ⟨name, inputs, .dense units weights bias (some text') biases⟩
  | activation {name text text' : String} {inputs : List String} (hleaves : c.Leaves name .result)
      (htext : Quantizer.read text = .ok (.signs coded)) (htext' : Quantizer.read text' = .ok (.signs coded')) :
      Transcodes c coded coded' ⟨name, inputs, .activation text⟩ ⟨name, inputs, .activation text'⟩

/-- What such layers are built into. -/
inductive Op.Transcodes (coded coded' : Bool) (free : Slot → Prop) : Op → Op → Prop
  | same (op : Op) : Transcodes coded coded' free op op
  | kernel {inFeatures : ℕ} {weights bias : List Float} {biasQuantizer : Option Quantizer} (hfree : free .weight) :
      Transcodes coded coded' free (.dense inFeatures weights bias (some (.signs coded)) biasQuantizer)
        (.dense inFeatures weights bias (some (.signs coded')) biasQuantizer)
  | activation (hfree : free .result) : Transcodes coded coded' free (.activation (.quantized (.signs coded)))
      (.activation (.quantized (.signs coded')))

variable {c : Config} {coded coded' : Bool}

theorem Op.Transcodes.requiredSlots_eq {free : Slot → Prop} {op op' : Op} (h : Op.Transcodes coded coded' free op op') :
    op'.requiredSlots = op.requiredSlots := by
  cases h with
  | same | kernel | activation => rfl

theorem LayerDescription.Transcodes.symm {layer layer' : LayerDescription}
    (h : layer.Transcodes c coded coded' layer') :
    layer'.Transcodes c coded' coded layer := by
  cases h with
  | same => exact .same layer
  | kernel hleaves htext htext' => exact .kernel hleaves htext' htext
  | activation hleaves htext htext' => exact .activation hleaves htext' htext

namespace LayerKind

theorem readActivation_of_read {text : String} (h : Quantizer.read text = .ok (.signs coded)) :
    readActivation text = .ok (.activation (.quantized (.signs coded))) := by
  unfold readActivation
  split
  · cases h
  · cases h
  · cases h
  · rw [readQuantizer_eq_ok_iff.mpr h]
    rfl

theorem readOptional_of_read {text : String} {q : Quantizer} (h : Quantizer.read text = .ok q) :
    readOptional (some text) = .ok (some q) := map_eq_ok_iff.mpr ⟨q, readQuantizer_eq_ok_iff.mpr h, rfl⟩

theorem exists_build_kernel {units : ℕ} {weights : List Float} {bias : Option (List Float)} {text text' : String}
    {biases : Option String} {q q' : Quantizer} (htext : Quantizer.read text = .ok q)
    (htext' : Quantizer.read text' = .ok q') {widths : List ℕ} {op : Op} {width : ℕ}
    (h : (dense units weights bias (some text) biases).build widths = .ok (op, width)) :
    ∃ inFeatures bias' biasQuantizer, op = .dense inFeatures weights bias' (some q) biasQuantizer ∧
      (dense units weights bias (some text') biases).build widths =
        .ok (.dense inFeatures weights bias' (some q') biasQuantizer, width) := by
  obtain ⟨inFeatures, q₁, biasQuantizer, rfl, hunits, hweights, hbias, hq, hbiases, rfl, rfl⟩ :=
    build_dense_eq_ok_iff.mp h
  cases (readOptional_of_read htext).symm.trans hq
  exact ⟨inFeatures, _, biasQuantizer, rfl, build_dense_eq_ok_iff.mpr
    ⟨inFeatures, some q', biasQuantizer, rfl, hunits, hweights, hbias, readOptional_of_read htext', hbiases, rfl, rfl⟩⟩

end LayerKind

/-- Built layers stand to each other as they were described. -/
theorem LayerDescription.Transcodes.alike {layer layer' : LayerDescription}
    (h : layer.Transcodes c coded coded' layer') :
    layer.Alike (fun name ↦ Op.Transcodes coded coded' (c.Leaves name)) layer' := by
  cases h with
  | same => exact ⟨rfl, rfl, rfl, fun widths op width hbuild ↦ ⟨op, hbuild, .same op⟩⟩
  | kernel hleaves htext htext' =>
    refine ⟨rfl, rfl, rfl, fun widths op width hbuild ↦ ?_⟩
    obtain ⟨inFeatures, bias', biasQuantizer, rfl, hbuild'⟩ := LayerKind.exists_build_kernel htext htext' hbuild
    exact ⟨_, hbuild', .kernel hleaves⟩
  | activation hleaves htext htext' =>
    refine ⟨rfl, rfl, rfl, fun widths op width hbuild ↦ ?_⟩
    cases LayerKind.build_eq_ok_iff.mp hbuild with
    | activation hop =>
      cases (LayerKind.readActivation_of_read htext).symm.trans hop
      have hop' := LayerKind.readActivation_of_read htext'
      exact ⟨_, LayerKind.build_eq_ok_iff.mpr (.activation hop'), .activation hleaves⟩

end FixedNet

import FixedNet.Proofs.Inference.Accumulators
import FixedNet.Proofs.Precision.Modes

namespace FixedNet

open Recorded (Agrees)

theorem Step.all_kept_recordInputs {n : ℕ} {a : Format} {exact : Prop} (s : Step n)
    (values : Vector (List Fixed) n) : (s.recordInputs values).All (Event.Kept a exact) :=
  Recorded.all_mapM.mpr fun _ _ ↦ all_recordDecoded.mpr fun _ _ _ ↦ ⟨kept_sum _ _, kept_sum _ _⟩

namespace Graph

variable {g : Graph} {d : Description} {t₁ t : Typing g} {i : Fin g.size} {s : Step g.size}
  {values : Vector (List Fixed) g.size}

theorem arrives_of_mem (hcodes : RepresentsCodes t) (hgrids : SameGrids t₁ t) (h : SlotsOf t values) {f : Format}
    (hf : g.arriving t₁ i = .ok f) {x : Fixed}
    (hx : x ∈ (recordDecoded (decide ((g.layer i).op.encoding = .xnor)) (values.get i)).value) : f.Arrives x := by
  unfold arriving at hf
  split at hf
  case h_2 => cases hf
  case h_1 f₁ hf₁ =>
    cases hf
    obtain ⟨f', hf', hsame⟩ := hgrids.result i f₁ hf₁
    have hresult : resultFormat t i = f' := by rw [resultFormat, hf', Option.getD_some]
    cases hencoding : (g.layer i).op.encoding with
    | direct =>
      rw [hencoding] at hx
      have hgrid := h.onGrid i x hx
      rw [hresult] at hgrid
      exact Format.arrives_of_onGrid (hgrid.of_sameGrid hsame)
    | xnor =>
      rw [hencoding, value_recordDecoded] at hx
      obtain ⟨y, hy, rfl⟩ := List.mem_map.mp hx
      refine Format.arrives_decoded ((hcodes i).result f' hencoding hf').2 ?_ (h.codes i hencoding y hy)
      rw [(h.onGrid i y hy).frac_eq, hresult]

theorem IsStep.receives (hd : g.Describes d) (hcodes : RepresentsCodes t) (hgrids : SameGrids t₁ t)
    (hs : g.IsStep t i s) (h : SlotsOf t values)
    (hlengths : ∀ j ∈ (g.layer i).inputs, (values.get j).length = (g.layer j).features) {arriving : List Format}
    (harriving : (g.layer i).inputs.mapM (g.arriving t₁) = .ok arriving) :
    (g.layer i).Receives arriving (s.recordInputs values).value := by
  have hvalue : (s.recordInputs values).value = (g.layer i).inputs.map fun j ↦
      (recordDecoded (decide ((g.layer j).op.encoding = .xnor)) (values.get j)).value := by
    rw [Step.recordInputs, Recorded.mapM_value, hs.inputs_eq, List.map_map]
    rfl
  refine ⟨length_of_mapM harriving, ?_, ?_⟩ <;> rw [hvalue]
  · rw [List.forall₂_map_right_iff]
    exact (mapM_eq_ok_iff.mp harriving).flip.imp fun f j hf x hx ↦ arrives_of_mem hcodes hgrids h hf hx
  · have hwidths : ((g.layer i).inputs.map fun j ↦
        (recordDecoded (decide ((g.layer j).op.encoding = .xnor)) (values.get j)).value).map List.length =
        (g.layer i).inputs.map fun j ↦ (g.layer j).features := by
      rw [List.map_map]
      exact List.map_congr_left fun j hj ↦ (length_recordDecoded _ _).trans (hlengths j hj)
    rw [hwidths]
    exact hd.shaped i

end Graph

theorem Layer.Compiles.accum_eq {n : ℕ} {layer : Layer n} {formats : SlotMap Format} {k : Kernel} {a : Format}
    (h : layer.Compiles formats k) (haccum : k.accum? = some a) :
    formats.get .accum = some a ∧ .accum ∈ layer.op.requiredSlots ∧ k.isInput = false := by
  cases h with
  | input | activation | concatenate => cases haccum
  | dense op h | batchNorm op _ _ h | softmax op _ _ h | add op h =>
    cases haccum
    rw [op]
    exact ⟨h, by simp [Op.requiredSlots], rfl⟩

/-- Inferred accumulators are never overflowed. Along any run whose values words can count, in each
layer that has one, whatever is narrowed into it is in its range after flooring; nothing is lost where the
required width is at most 64 bits, so that dense layers sum their products exactly, and only fractional bits are
given up where it is more. -/
theorem inferred_accumulators_hold {d : Description} {g : Graph} {c : Config} {t₀ t₁ t : Typing g}
    {passes : List OutputModes} {p : Plan} (hg : Graph.ofDescription d = .ok g)
    (hc : c.LeavesAccumulators) (hresolve : g.resolve c t₀ = (t₁, .ok ()))
    (hpasses : g.adjustModes passes t₁ = .ok t)
    (hp : g.compile t = .ok p) (hcodes : g.RepresentsCodes t) (row : List Float) {s : Step p.size} {values : p.Values}
    (hreach : p.Reaches row s values) (hheld : ∀ input ∈ s.inputs, (values.get input.1).length < 2 ^ 64)
    {a : Format} (haccum : s.kernel.accum? = some a) {i : Fin g.size}
    (hi : s.name = (g.layer i).name) (hfan : (g.layer i).fanIn < 2 ^ 62) :
    Agrees Fault.IsOverflow (p.stepOutcome row values s) (s.record row values) ∧
    ∃ w, g.requiredWidth t₁ i = .ok (some w) ∧ w.Becomes a ∧
      (s.record row values).All (Event.Kept a (w.total ≤ 64)) ∧
      ∀ units result, s.kernel = .dense units a result → w.total ≤ 64 → ∀ u ∈ units, ∃ sum,
        accumulateProducts a (Fixed.zero.narrow a) (((s.recordInputs values).value.head?.getD []).zip u.weights)
          = .ok sum ∧
          sum.value = ((((s.recordInputs values).value.head?.getD []).zip u.weights).map
            fun p ↦ p.1.value * p.2.value).sum := by
  obtain ⟨steps, rfl, hcompile⟩ := Graph.exists_plan_of_compile hp
  have hsteps := Graph.forall₂_isStep hcompile
  obtain ⟨j, -, hs⟩ := exists_of_mem_forall₂ hsteps hreach.mem
  obtain rfl : j = i := Graph.name_injective hg (hs.name_eq.symm.trans hi)
  have hgrids := Graph.sameGrids_of_adjustModes hpasses
  have hslots := Graph.slotsOf_of_reaches hg hcodes hsteps hreach
  have hlengths : ∀ source ∈ (g.layer j).inputs, (values.get source).length = (g.layer source).features := by
    intro source hsource
    have hinput := hs.inputs_eq ▸ List.mem_map_of_mem hsource
    exact Graph.length_of_reaches hg hcompile hreach hinput (hheld _ hinput)
  obtain ⟨ha, hrequired, hinput⟩ := hs.compiles.accum_eq haccum
  rw [hgrids.formats j .accum (by decide)] at ha
  obtain ⟨arriving, w, harriving, hw, hwidth⟩ := Graph.exists_requiredWidth hg (hc.leaves _) hresolve hrequired ha
  have hreceives := hs.receives (Graph.describes_of_isOk hg) hcodes hgrids hslots hlengths harriving
  have hwidth' : g.requiredWidth t₁ j = .ok (some w) := bind_eq_ok_iff.mpr ⟨arriving, harriving, hw⟩
  rw [← Layer.accumulatorWidth_congr (hgrids.formats j)] at hw
  obtain ⟨hbecomes, hkept⟩ := hs.compiles.all_kept hreceives (hcodes j) hfan hw hwidth haccum row
  refine ⟨Plan.stepOutcome_agrees hinput row hslots.onGrid, w, hwidth', hbecomes, ?_, fun units result hk hle u hu ↦ ?_⟩
  · exact Recorded.all_bind.mpr ⟨s.all_kept_recordInputs values, hkept⟩
  · have hcompiles := hs.compiles
    rw [hk] at hcompiles
    exact hcompiles.exists_accumulated hreceives (hcodes j) hfan hw hwidth hle hu

def affineAccum : Format := { total := 33, integer := 13, signed := true }

def affineResolved : Typing affineGraph :=
  let f : Format := default
  #v[⟨{ result := some f }, 1024⟩,
    ⟨{ weight := some f, bias := some f, accum := some affineAccum, result := some f }, 1024⟩]

def affineModes : OutputModes := ⟨["unit"], .nearestEven, .saturate⟩

def affineAdjusted : Typing affineGraph :=
  let f : Format := default
  #v[⟨{ result := some f }, 1024⟩,
    ⟨{ weight := some f, bias := some f, accum := some affineAccum, result := some (affineModes.adjust f) }, 1024⟩]

def affineData : Step 2 := ⟨"data", affineGraph.input, [], .input default⟩

def affineUnit : Step 2 := ⟨"unit", affineGraph.output, [(affineGraph.input, false)],
  .dense [⟨[⟨512, 10⟩, ⟨-1280, 10⟩], none, ⟨256, 10⟩⟩] affineAccum (affineModes.adjust default)⟩

def affineValues : Vector (List Fixed) 2 := #v[[⟨1536, 10⟩, ⟨2048, 10⟩], []]

def affineAdjustedPlan : Plan where
  size := 2
  steps := [affineData, affineUnit]
  output := affineGraph.output
  inputFeatures := 2
  outputFeatures := 1

set_option maxRecDepth 20000 in
theorem resolve_affine : affineGraph.resolve {} affineGraph.untyped = (affineResolved, .ok ()) := rfl

theorem adjustModes_affine : affineGraph.adjustModes [affineModes] affineResolved = .ok affineAdjusted := rfl

set_option maxRecDepth 20000 in
theorem compile_affineAdjusted : affineGraph.compile affineAdjusted = .ok affineAdjustedPlan := rfl

theorem leavesAccumulators_empty : Config.LeavesAccumulators {} := ⟨rfl, fun name own h ↦ by simp at h⟩

theorem representsCodes_affineAdjusted : affineGraph.RepresentsCodes affineAdjusted := by
  rintro ⟨i, hi⟩
  change i < 2 at hi
  interval_cases i
  · exact ⟨fun _ h ↦ (nomatch h), fun _ h ↦ (nomatch h)⟩
  · exact ⟨fun _ h ↦ (nomatch h), fun _ h ↦ (nomatch h)⟩

set_option maxRecDepth 20000 in
theorem reaches_affineUnit : affineAdjustedPlan.Reaches [1.5, 2] affineUnit affineValues :=
  ⟨[affineData], [], rfl, rfl⟩

theorem inferred_accumulators_hold_affine :
    affineGraph.resolve {} affineGraph.untyped = (affineResolved, .ok ()) ∧
    affineGraph.adjustModes [affineModes] affineResolved = .ok affineAdjusted ∧
    affineAdjustedPlan.Reaches [1.5, 2] affineUnit affineValues ∧
    ∃ w, affineGraph.requiredWidth affineResolved affineGraph.output = .ok (some w) ∧ w.Becomes affineAccum ∧
      (affineUnit.record [1.5, 2] affineValues).All (Event.Kept affineAccum (w.total ≤ 64)) := by
  refine ⟨resolve_affine, adjustModes_affine, reaches_affineUnit, ?_⟩
  have hheld : ∀ input ∈ affineUnit.inputs, (affineValues.get input.1).length < 2 ^ 64 := by decide
  obtain ⟨-, w, hw, hbecomes, hkept, -⟩ := inferred_accumulators_hold ofDescription_affine leavesAccumulators_empty
    resolve_affine adjustModes_affine compile_affineAdjusted representsCodes_affineAdjusted [1.5, 2]
    reaches_affineUnit hheld (a := affineAccum) rfl (i := affineGraph.output) rfl (by decide)
  exact ⟨w, hw, hbecomes, hkept⟩

end FixedNet

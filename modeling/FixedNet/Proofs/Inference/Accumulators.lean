import FixedNet.Proofs.Inference.Accumulation
import FixedNet.Proofs.Inference.Filling
import FixedNet.Proofs.Inference.Slots
import FixedNet.Proofs.Precision.Resolved

namespace FixedNet

def Kernel.accum? : Kernel → Option Format
  | dense _ accum _ => some accum
  | batchNorm _ accum _ => some accum
  | softmax _ _ accum _ => some accum
  | add accum _ => some accum
  | input _ => none
  | activation .. => none
  | concatenate _ => none

namespace Layer

variable {n : ℕ} (layer : Layer n)

def fanIn : ℕ :=
  match layer.op with
  | .dense inFeatures .. => inFeatures
  | .softmax => layer.features
  | _ => layer.inputs.length

/-- Inputs within the widths of the formats that arrive, as many and as long as the layer has them. -/
structure Receives (arriving : List Format) (inputs : List (List Fixed)) : Prop where
  count : arriving.length = layer.inputs.length
  arrives : List.Forall₂ (fun f xs ↦ ∀ x ∈ xs, f.Arrives x) arriving inputs
  shaped : layer.op.Shaped word64 (inputs.map List.length) layer.features

variable {layer}

theorem Receives.arrives_of_firstInput {arriving : List Format} {inputs : List (List Fixed)}
    (h : layer.Receives arriving inputs) {f : Format} (hf : layer.firstInput arriving = .ok f) :
    ∀ x ∈ inputs.head?.getD [], f.Arrives x := by
  have harrives := h.arrives
  cases harrives with
  | nil => cases hf
  | cons hxs _ =>
    cases hf
    exact hxs

theorem operand_eq_ok_iff {formats : SlotMap Format} {p : Slot} {f : Format} :
    layer.operand formats p = .ok f ↔ formats.get p = some f := by
  unfold operand
  cases formats.get p <;> simp

end Layer

theorem Width.exists_takes {w : Width} {terms : ℕ} {a : Format} (h : (w.widen terms).toFormat = .ok a)
    (hpos : 1 ≤ w.total) (hterms : terms < 2 ^ 62) : (w.widen terms).Becomes a ∧ ∃ low high,
      a.Absorbs terms low high ∧ ∀ q, w.Holds q → a.Takes low high ((w.widen terms).total ≤ 64) q := by
  have hbecomes := becomes_of_toFormat h (by
    dsimp only [total, widen] at hpos ⊢
    omega)
  obtain ⟨low, high, habsorbs, hbetween⟩ := exists_absorbs hbecomes hpos hterms
  exact ⟨hbecomes, low, high, habsorbs, fun q hq ↦
    ⟨(hbetween q hq).1, (hbetween q hq).2, fun hle ↦ hbecomes.exists_intCast hle hq⟩⟩

section

variable {a : Format} {exact : Prop} {low high : ℤ} {terms : ℕ}

theorem all_kept_recordProduct_result (f : Format) (x y : Fixed) :
    (recordProduct .result f x y).All (Event.Kept a exact) :=
  (all_recordProduct _ f x y).mpr ⟨kept_product x y, kept_result f _⟩

theorem all_kept_recordSum_result (f : Format) (x y : Fixed) : (recordSum .result f x y).All (Event.Kept a exact) :=
  (all_recordSum _ f x y).mpr ⟨kept_sum x y, kept_result f _⟩

theorem Neuron.all_kept_record (ha : a.Absorbs terms low high) {u : Neuron} {xs : List Fixed}
    (hlength : u.weights.length ≤ terms)
    (h : ∀ p ∈ xs.zip u.weights, a.Takes low high exact (p.1.value * p.2.value)) :
    (u.record a xs).All (Event.Kept a exact) := by
  have hzip : (xs.zip u.weights).length ≤ terms := by
    rw [List.length_zip]
    omega
  exact all_record ha.kept_zero (ha.recordProducts hzip h) fun s _ sum _ ↦ kept_product sum s

theorem Fixed.OnGrid.sumFits {x y : Fixed} (hx : x.OnGrid a) (hy : y.OnGrid a) : x.SumFits y := by
  have h₁ := hx.inRange.bounds
  have h₂ := hy.inRange.bounds
  rw [sumFits_iff (hx.frac_eq.trans hy.frac_eq.symm)] <;> unfold FitsWord <;> omega

theorem fits_recordProducts {acc : Fixed} (hacc : acc.OnGrid a) {pairs : List (Fixed × Fixed)}
    (h : ∀ p ∈ pairs, FitsWord (p.1.raw * p.2.raw)) : (recordProducts a acc pairs).Fits :=
  (hacc.recordProducts (fun p hp ↦ (all_recordProduct _ _ _ _).mpr ⟨h p hp, trivial⟩)
    fun _ _ hx hy ↦ (all_recordSum _ _ _ _).mpr ⟨hx.sumFits hy, trivial⟩).all

/-- Products that are exact and fit are summed exactly. -/
theorem Format.Absorbs.accumulateProducts (ha : a.Absorbs terms low high) {pairs : List (Fixed × Fixed)}
    (hlength : pairs.length ≤ terms) (hfits : ∀ p ∈ pairs, FitsWord (p.1.raw * p.2.raw)) (he : exact)
    (h : ∀ p ∈ pairs, a.Takes low high exact (p.1.value * p.2.value)) :
    ∃ sum, accumulateProducts a (Fixed.zero.narrow a) pairs = .ok sum ∧
      sum.value = (pairs.map fun p ↦ p.1.value * p.2.value).sum :=
  ⟨_, (recordProducts_agrees a (Fixed.zero.narrow a) pairs).of_fits
    (fits_recordProducts (Fixed.onGrid_narrow a _) hfits), (ha.recordProducts hlength h).value he⟩

end

namespace Layer.Compiles

variable {n : ℕ} {layer : Layer n} {formats : SlotMap Format} {arriving : List Format} {inputs : List (List Fixed)}
  {k : Kernel} {w : Width} {a : Format}

theorem exists_operands {units : List Neuron} {result : Format} (hk : layer.Compiles formats (.dense units a result))
    (hr : layer.Receives arriving inputs) (hcodes : layer.RepresentsCodes formats)
    (hw : layer.accumulatorWidth formats arriving = .ok (some w)) : ∃ f f', w = (Width.product f f').widen layer.fanIn ∧
      (∀ x ∈ inputs.head?.getD [], f.Arrives x) ∧
      ∀ u ∈ units, u.weights.length ≤ layer.fanIn ∧ ∀ x ∈ u.weights, f'.Arrives x := by
  cases hk with
  | @dense inFeatures weights bias kernelQuantizer biasQuantizer _ _ _ op _ _ hunits =>
    unfold accumulatorWidth at hw
    rw [op] at hw
    obtain ⟨weight, hweight, hw⟩ := bind_eq_ok_iff.mp hw
    obtain ⟨input, hinput, hw⟩ := bind_eq_ok_iff.mp hw
    cases pure_eq_ok_iff.mp hw
    have hfan : layer.fanIn = inFeatures := by rw [fanIn, op]
    have hencoding : layer.op.kernelEncoding = (kernelQuantizer.map Quantizer.encoding).getD .direct := by
      rw [op]
      rfl
    refine ⟨input, _, by rw [hfan], hr.arrives_of_firstInput hinput, fun u hu ↦ ?_⟩
    obtain ⟨⟨f, hf, hweights⟩, hlength, -, -⟩ := hunits u hu
    rw [operand_eq_ok_iff.mp hweight] at hf
    cases hf
    refine ⟨by rwa [hfan], fun x hx ↦ (hweights x hx).arrives fun hx ↦ ?_⟩
    exact hcodes.weight weight (hencoding.trans hx) (operand_eq_ok_iff.mp hweight)

section

variable {result : Format} (hr : layer.Receives arriving inputs)
  (hw : layer.accumulatorWidth formats arriving = .ok (some w)) (ha : w.toFormat = .ok a)

include hr hw ha

theorem all_kept_dense {units : List Neuron} (hk : layer.Compiles formats (.dense units a result))
    (hcodes : layer.RepresentsCodes formats) (hfan : layer.fanIn < 2 ^ 62) (row : List Float) :
    w.Becomes a ∧ ((Kernel.dense units a result).record row inputs).All (Event.Kept a (w.total ≤ 64)) := by
  obtain ⟨f, f', rfl, hxs, hunits⟩ := hk.exists_operands hr hcodes hw
  obtain ⟨hbecomes, low, high, habsorbs, htakes⟩ := Width.exists_takes ha (Width.product_total_pos f f') hfan
  refine ⟨hbecomes, Kernel.all_record_dense row (fun u hu ↦ ?_) fun u _ ↦ all_kept_recordSum_result _ _ _⟩
  refine u.all_kept_record habsorbs (hunits u hu).1 fun p hp ↦ htakes _ ?_
  obtain ⟨hx, hv⟩ := List.of_mem_zip hp
  exact Width.product_holds (hxs _ hx).holds ((hunits u hu).2 _ hv).holds

theorem all_kept_batchNorm {channels : List (Fixed × Fixed)}
    (hk : layer.Compiles formats (.batchNorm channels a result)) (row : List Float) :
    w.Becomes a ∧ ((Kernel.batchNorm channels a result).record row inputs).All (Event.Kept a (w.total ≤ 64)) := by
  cases hk with
  | @batchNorm _ _ _ scale _ _ _ op hscale _ _ _ hchannels =>
    unfold accumulatorWidth at hw
    rw [op] at hw
    obtain ⟨input, hinput, hw⟩ := bind_eq_ok_iff.mp hw
    obtain ⟨scale', hscale', hw⟩ := bind_eq_ok_iff.mp hw
    rw [operand_eq_ok_iff, hscale] at hscale'
    cases hscale'
    cases pure_eq_ok_iff.mp hw
    rw [← Width.widen_one (Width.product input scale)] at ha ⊢
    obtain ⟨hbecomes, low, high, habsorbs, htakes⟩ :=
      Width.exists_takes ha (Width.product_total_pos input scale) (by norm_num)
    refine ⟨hbecomes, Kernel.all_record_batchNorm row (fun p hp ↦ ?_) fun p _ ↦ all_kept_recordSum_result _ _ _⟩
    obtain ⟨hx, hc⟩ := List.of_mem_zip hp
    refine (habsorbs.recordProduct le_rfl (htakes _ ?_)).all
    exact Width.product_holds (hr.arrives_of_firstInput hinput _ hx).holds (Width.holds_of_onGrid (hchannels _ hc).1)

theorem all_kept_softmax {exp : ExpTable} {inv : InvTable} (hk : layer.Compiles formats (.softmax exp inv a result))
    (hfan : layer.fanIn < 2 ^ 62) (row : List Float) :
    w.Becomes a ∧ ((Kernel.softmax exp inv a result).record row inputs).All (Event.Kept a (w.total ≤ 64)) := by
  cases hk with
  | @softmax _ _ expFormat _ _ _ op hexp _ _ _ hexps =>
    unfold accumulatorWidth at hw
    rw [op] at hw
    obtain ⟨exp', hexp', hw⟩ := bind_eq_ok_iff.mp hw
    rw [operand_eq_ok_iff, hexp] at hexp'
    cases hexp'
    cases pure_eq_ok_iff.mp hw
    have hfan' : layer.fanIn = layer.features := by rw [fanIn, op]
    rw [hfan'] at hfan
    obtain ⟨hbecomes, low, high, habsorbs, htakes⟩ := Width.exists_takes ha (Width.ofFormat_total_pos expFormat) hfan
    have hshaped := hr.shaped
    have hfirst : (inputs.head?.getD []).length = layer.features := by
      rw [op] at hshaped
      generalize hwidths : inputs.map List.length = widths, layer.features = width at *
      cases hshaped
      obtain ⟨xs, rfl, hxs⟩ := List.map_eq_singleton_iff.mp hwidths
      exact hxs
    refine ⟨hbecomes, Kernel.all_record_softmax row (fun _ _ _ _ ↦ kept_sum _ _) habsorbs.kept_zero ?_
      fun _ _ ↦ all_kept_recordProduct_result _ _ _⟩
    refine (habsorbs.recordTerms ?_ fun e he ↦ htakes _ ?_).all
    · exact (exp.length_record _).trans_le hfirst.le
    · obtain ⟨d, rfl⟩ := exp.exists_lookup_of_mem he
      exact Width.holds_of_onGrid (hexps d)

theorem all_kept_add (hk : layer.Compiles formats (.add a result)) (hfan : layer.fanIn < 2 ^ 62) (row : List Float) :
    w.Becomes a ∧ ((Kernel.add a result).record row inputs).All (Event.Kept a (w.total ≤ 64)) := by
  cases hk with
  | add op =>
    unfold accumulatorWidth at hw
    rw [op] at hw
    cases pure_eq_ok_iff.mp hw
    have hfan' : layer.fanIn = arriving.length := by rw [fanIn, op, hr.count]
    rw [hfan'] at hfan
    have hshaped := hr.shaped
    have hne : arriving ≠ [] := by
      rw [op] at hshaped
      have hcount := hr.arrives.length_eq
      cases hshaped with
      | add several =>
        rw [List.length_map] at several
        exact List.ne_nil_of_length_pos (by omega)
    obtain ⟨hbecomes, low, high, habsorbs, htakes⟩ := Width.exists_takes ha (Width.union_total_pos hne) hfan
    refine ⟨hbecomes, Kernel.all_record_add row habsorbs.kept_zero
      ⟨habsorbs.foldlM_recordEntries ?_ hr.arrives.length_eq.ge ?_, fun y _ ↦ kept_result _ y⟩⟩
    · intro z hz
      obtain ⟨_, -, rfl⟩ := List.mem_map.mp hz
      exact habsorbs.accumulated_zero
    · intro xs hxs x hx
      obtain ⟨f, hf, harrives⟩ := exists_of_mem_forall₂ hr.arrives hxs
      exact htakes _ (Width.union_holds hf (harrives x hx).holds)

end

theorem all_kept (hk : layer.Compiles formats k) (hr : layer.Receives arriving inputs)
    (hcodes : layer.RepresentsCodes formats) (hfan : layer.fanIn < 2 ^ 62)
    (hw : layer.accumulatorWidth formats arriving = .ok (some w)) (ha : w.toFormat = .ok a)
    (haccum : k.accum? = some a) (row : List Float) :
    w.Becomes a ∧ (k.record row inputs).All (Event.Kept a (w.total ≤ 64)) := by
  cases k with
  | input | activation | concatenate => cases haccum
  | dense =>
    cases haccum
    exact all_kept_dense hr hw ha hk hcodes hfan row
  | batchNorm =>
    cases haccum
    exact all_kept_batchNorm hr hw ha hk row
  | softmax =>
    cases haccum
    exact all_kept_softmax hr hw ha hk hfan row
  | add =>
    cases haccum
    exact all_kept_add hr hw ha hk hfan row

theorem exists_accumulated {units : List Neuron} {result : Format} (hk : layer.Compiles formats (.dense units a result))
    (hr : layer.Receives arriving inputs) (hcodes : layer.RepresentsCodes formats) (hfan : layer.fanIn < 2 ^ 62)
    (hw : layer.accumulatorWidth formats arriving = .ok (some w)) (ha : w.toFormat = .ok a) (hle : w.total ≤ 64)
    {u : Neuron} (hu : u ∈ units) :
    ∃ sum, accumulateProducts a (Fixed.zero.narrow a) ((inputs.head?.getD []).zip u.weights) = .ok sum ∧
      sum.value = (((inputs.head?.getD []).zip u.weights).map fun p ↦ p.1.value * p.2.value).sum := by
  obtain ⟨f, f', rfl, hxs, hunits⟩ := hk.exists_operands hr hcodes hw
  obtain ⟨-, low, high, habsorbs, htakes⟩ := Width.exists_takes ha (Width.product_total_pos f f') hfan
  obtain ⟨hlength, hweights⟩ := hunits u hu
  have hproduct : (Width.product f f').total ≤ 64 := by
    dsimp only [Width.total, Width.widen] at hle ⊢
    omega
  refine habsorbs.accumulateProducts ?_ (fun p hp ↦ ?_) hle fun p hp ↦ htakes _ ?_
  · rw [List.length_zip]
    omega
  · obtain ⟨hx, hv⟩ := List.of_mem_zip hp
    exact (hxs _ hx).fitsWord_mul (hweights _ hv) hproduct
  · obtain ⟨hx, hv⟩ := List.of_mem_zip hp
    exact Width.product_holds (hxs _ hx).holds (hweights _ hv).holds

end Layer.Compiles

end FixedNet

import FixedNet.Proofs.Inference.Filling
import FixedNet.Proofs.Inference.Headroom
import FixedNet.Proofs.Inference.Ready
import FixedNet.Proofs.Quantizer.Channels
import FixedNet.Proofs.Quantizer.Levels

namespace FixedNet

open Binary64 (value)

namespace Format

theorem bit_represents_iff {q : ℚ} : bit.Represents q ↔ q = 0 ∨ q = 1 := by
  refine ⟨?_, bit_represents⟩
  rintro ⟨n, ⟨hlow, hhigh⟩, rfl⟩
  change 0 ≤ n at hlow
  change n ≤ 1 at hhigh
  have hfrac : (2 : ℚ) ^ (-bit.frac) = 1 := by norm_num [frac, bit]
  rw [hfrac, mul_one]
  exact_mod_cast (by omega : n = 0 ∨ n = 1)

theorem trit_represents_iff {q : ℚ} : trit.Represents q ↔ q = -2 ∨ q = -1 ∨ q = 0 ∨ q = 1 := by
  have hfrac : (2 : ℚ) ^ (-trit.frac) = 1 := by norm_num [frac, trit]
  constructor
  · rintro ⟨n, ⟨hlow, hhigh⟩, rfl⟩
    change -2 ≤ n at hlow
    change n ≤ 1 at hhigh
    rw [hfrac, mul_one]
    exact_mod_cast (by omega : n = -2 ∨ n = -1 ∨ n = 0 ∨ n = 1)
  · rintro (rfl | h)
    · exact ⟨-2, by decide, by rw [hfrac]; norm_num⟩
    · exact trit_represents h

end Format

/-- The bias that is compiled from a number, its code and its scale: the value `v` is snapped to the format. It survives
if the format represents it, which is a matter of the quantizer. -/
structure Quantizer.SnapsBias (q : Quantizer) (f : Format) (w code scale v : Float) (b : Fixed) : Prop where
  value_eq : v = q.encoding.decode code * scale
  finite : v.isFinite = true
  snapped : b = ⟨f.rawOfNumber v, f.frac⟩
  kept_iff : b.value = value v ↔ f.Represents (value v)
  signs : q.encoding = .xnor → (b.value = value v ↔ value scale = 0 ∨ code = 1 ∧ value scale = 1) ∧
    (value scale = 1 → b.value = 1)
  levels : q.encoding = .direct → (∀ u, q ≠ .uniform u) → (b.value = value v ↔
    code = 0 ∨ value scale = 0 ∨ value scale = 1 ∨ code = -1 ∧ value scale = 2)
  grid : ∀ u, q = .uniform u → u.isBinary = false → u.alpha.isUnit = true →
    (b.value = value v ↔ ¬ u.IsAbove (value w))

namespace Quantizer

variable {q : Quantizer} {f : Format} {w code scale : Float}

theorem format_of_xnor (hq : q.encoding = .xnor) (hf : q.format = .ok f) : f = .bit :=
  Except.ok.inj (hf.symm.trans (format_of_encoding hq))

theorem format_of_levels (hq : q.encoding = .direct) (hu : ∀ u, q ≠ .uniform u) (hf : q.format = .ok f) :
    f = .trit := by
  cases q with
  | uniform u => exact absurd rfl (hu u)
  | ternary t => exact (Except.ok.inj hf).symm
  | binary b =>
    rw [encoding] at hq
    split at hq
    · cases hq
    case isFalse hxnor => exact (Except.ok.inj hf).symm.trans (if_neg hxnor)

theorem represents_signs_iff (hcode : code = 0 ∨ code = 1) (hscale : 0 ≤ value scale)
    (hfinite : (Encoding.xnor.decode code * scale).isFinite = true) :
    Format.bit.Represents (value (Encoding.xnor.decode code * scale)) ↔
      value scale = 0 ∨ code = 1 ∧ value scale = 1 := by
  rw [Format.bit_represents_iff, Encoding.value_decode_mul hcode hfinite]
  by_cases hone : code = 1
  · rw [if_pos hone, one_mul]
    simp only [hone, true_and]
  · rw [if_neg hone, neg_one_mul, neg_eq_zero]
    simp only [hone, false_and, or_false, or_iff_left_iff_imp]
    intro h
    linarith

theorem value_signs (hcode : code = 0 ∨ code = 1) (hscale : value scale = 1)
    (hfinite : (Encoding.xnor.decode code * scale).isFinite = true) :
    (Fixed.mk (Format.bit.rawOfNumber (Encoding.xnor.decode code * scale)) Format.bit.frac).value = 1 := by
  obtain ⟨n, hn, hraw⟩ : ∃ n : ℤ, value (Encoding.xnor.decode code * scale) = n ∧ Format.bit.reduce n = 1 := by
    rw [Encoding.value_decode_mul hcode hfinite, hscale, mul_one]
    split
    · exact ⟨1, by norm_num, by decide⟩
    · exact ⟨-1, by norm_num, by decide⟩
  have hfrac : Format.bit.frac = 0 := rfl
  rw [Fixed.value, Format.rawOfNumber, hfrac, zpow_zero, mul_one, Binary64.nearest_value, hn, Rounding.round_intCast,
    hraw]
  norm_num

theorem represents_levels_iff (hcode : code = 1 ∨ code = 0 ∨ code = -1) (hscale : 0 ≤ value scale)
    (hfinite : (Encoding.direct.decode code * scale).isFinite = true) :
    Format.trit.Represents (value (Encoding.direct.decode code * scale)) ↔
      code = 0 ∨ value scale = 0 ∨ value scale = 1 ∨ code = -1 ∧ value scale = 2 := by
  have hone := Binary64.one_exact.2
  have hvalue : value code = 1 ∨ value code = 0 ∨ value code = -1 := by
    rcases hcode with rfl | rfl | rfl
    · exact .inl hone
    · exact .inr (.inl Binary64.value_zero)
    · exact .inr (.inr (by rw [Binary64.value_neg, hone]))
  obtain ⟨hf, hs⟩ := Binary64.isFinite_of_mul hfinite
  have hproduct := Binary64.value_mul_of_sign (x := code) hf hs hvalue
  change Format.trit.Represents (value (code * scale)) ↔ _
  rw [Format.trit_represents_iff, hproduct]
  have hne : (1 : Float) ≠ 0 ∧ (1 : Float) ≠ -1 ∧ (-1 : Float) ≠ 0 := by decide +kernel
  rcases hcode with rfl | rfl | rfl
  · rw [hone, one_mul]
    simp only [hne.1, hne.2.1, false_and, or_false, false_or]
    constructor
    · rintro (h | h | h | h)
      · linarith
      · linarith
      · exact .inl h
      · exact .inr h
    · rintro (h | h) <;> simp [h]
  · rw [Binary64.value_zero, zero_mul]
    simp
  · rw [Binary64.value_neg, hone, neg_one_mul]
    simp only [hne.2.2, true_and, false_or]
    constructor
    · rintro (h | h | h | h)
      · exact .inr (.inr (by linarith))
      · exact .inr (.inl (by linarith))
      · exact .inl (by linarith)
      · linarith
    · rintro (h | h | h) <;> simp [h]

end Quantizer

theorem Uniform.represents_project_iff {u : Uniform} {f : Format} (hb : u.isBinary = false)
    (hint : |u.integer| ≤ 2147483647) (hf : u.format = .ok f) {w : Float} (hw : w.isFinite = true) :
    f.Represents (value (u.project (w / 1) * 1)) ↔ ¬ u.IsAbove (value w) := by
  have hone := Binary64.one_exact
  have hquotient := Binary64.isNearest_div hw hone.1 (by rw [hone.2]; exact one_ne_zero)
  rw [hone.2, div_one] at hquotient
  obtain ⟨hfinite, hvalue⟩ := hquotient.exact (Binary64.nearest_value w) (Binary64.abs_value_lt w)
  obtain ⟨hcode, hlevel⟩ := project_exact hb hint hf hfinite
  rw [(Binary64.mul_one_exact hcode).2, hlevel, hvalue, f.represents_iff_inRange, inRange_iff hb hint hf]

namespace Quantizer

variable {q : Quantizer} {f : Format} {w code scale : Float} {b : Fixed}

theorem snapsBias (hread : q.IsRead) (husable : q.alpha.Usable) (hf : q.format = .ok f) (hw : w.isFinite = true)
    (h : q.projectChannel [w] = .ok ([code], scale)) (hb : Fixed.ofFloat f (q.encoding.decode code * scale) = .ok b) :
    q.SnapsBias f w code scale (q.encoding.decode code * scale) b := by
  obtain ⟨hfinite, rfl⟩ := Fixed.ofFloat_eq_ok_iff.mp hb
  have hkept := f.value_rawOfNumber_iff (q.encoding.decode code * scale)
  have hscale := scale_nonneg husable hw h
  refine ⟨rfl, hfinite, rfl, hkept, fun hq ↦ ?_, fun hq hu ↦ ?_, ?_⟩
  · obtain rfl := format_of_xnor hq hf
    have hcode := codes_of_encoding hq h code List.mem_cons_self
    rw [hq] at hfinite hkept ⊢
    exact ⟨hkept.trans (represents_signs_iff hcode hscale hfinite), fun hone ↦ value_signs hcode hone hfinite⟩
  · obtain rfl := format_of_levels hq hu hf
    have hcode := code_of_levels hq hu h code List.mem_cons_self
    rw [hq] at hfinite hkept ⊢
    exact hkept.trans (represents_levels_iff hcode hscale hfinite)
  · rintro u rfl hbinary hunit
    have halpha := Alpha.eq_one_of_isUnit hunit fun a ha ↦ (husable a ha).1
    obtain ⟨hcode, hone⟩ := Prod.mk.inj (Except.ok.inj ((projectChannel_of_isUnit halpha w).symm.trans h))
    obtain ⟨rfl, -⟩ := List.cons.inj hcode
    subst hone
    have hencoding : (uniform u).encoding = .direct := if_neg (Bool.eq_false_iff.mp hbinary)
    rw [hencoding] at hkept ⊢
    exact hkept.trans (Uniform.represents_project_iff hbinary hread hf hw)

end Quantizer

namespace Layer

variable {n : ℕ} {layer : Layer n} {formats : SlotMap Format} {q : Quantizer} {f : Format} {bias : List Float}

theorem exists_of_compileBias (hread : q.IsRead) (husable : q.alpha.Usable) (hf : q.format = .ok f)
    (hslot : formats.get .bias = some f) (hcount : bias.length = layer.features) {compiled : List Fixed}
    (h : layer.compileBias formats bias (some q) = .ok compiled) : ∃ tensor,
      q.projectTensor bias layer.features = .ok tensor ∧ tensor.values.length = layer.features ∧
      ∀ (c : ℕ) b, compiled[c]? = some b → ∃ w code scale v, bias[c]? = some w ∧ tensor.codes[c]? = some code ∧
        tensor.scales[c]? = some scale ∧ tensor.values[c]? = some v ∧ q.SnapsBias f w code scale v b := by
  obtain ⟨f', hf', h⟩ := bind_eq_ok_iff.mp h
  obtain rfl : f' = f := Option.some.inj ((formatAt_eq_ok_iff.mp hf').symm.trans hslot)
  obtain ⟨_, hfinite, h⟩ := bind_eq_ok_iff.mp h
  rw [ensureFinite_eq_ok_iff] at hfinite
  obtain ⟨tensor, htensor, h⟩ := bind_eq_ok_iff.mp h
  obtain ⟨_, -, h⟩ := bind_eq_ok_iff.mp h
  replace htensor := mapError_eq_ok_iff.mp htensor
  rw [mapError_eq_ok_iff, mapM_eq_ok_iff] at h
  obtain ⟨pairs, hpairs, rfl⟩ := Quantizer.exists_pairs_of_projectTensor (hcount ▸ htensor)
  refine ⟨_, htensor, ?_, fun c b hb ↦ ?_⟩
  · rw [CodedTensor.values_of_pairs, List.length_map, ← hpairs.length_eq, hcount]
  · rw [CodedTensor.values_of_pairs] at h ⊢
    rw [List.forall₂_map_left_iff] at h
    obtain ⟨⟨code, scale⟩, hp, hsnap⟩ := exists_getElem?_of_forall₂ h hb
    obtain ⟨w, hw, hcode⟩ := exists_getElem?_of_forall₂ hpairs hp
    refine ⟨w, code, scale, _, hw, ?_, ?_, ?_, Quantizer.snapsBias hread husable hf
      (hfinite w (List.mem_of_getElem? hw)) hcode hsnap⟩ <;> rw [List.getElem?_map, hp] <;> rfl

theorem Assembles.exists_biases {size inFeatures : ℕ} {inputBits : Except CompileError ℤ} {k : Kernel}
    (h : layer.Assembles formats size inputBits k) {weights : List Float}
    {kernelQuantizer biasQuantizer : Option Quantizer}
    (hop : layer.op = .dense inFeatures weights bias kernelQuantizer biasQuantizer)
    (hcount : bias.length = layer.features) : ∃ units accum result, k = .dense units accum result ∧
      units.length = layer.features ∧ layer.compileBias formats bias biasQuantizer = .ok (units.map Neuron.bias) := by
  cases h with
  | @dense _ _ _ _ _ values biases scales accum result op hweights hbias =>
    rw [hop] at op
    cases op
    obtain ⟨units, hunits, hlengths, -, -, hmap⟩ := map_assembled hweights hbias hcount inFeatures
    exact ⟨units, accum, result, by rw [hunits], hlengths, hmap.symm ▸ hbias⟩
  | input op | batchNorm op | activation op | softmax op | add op | concatenate op =>
    rw [hop] at op
    cases op

end Layer

/-- What becomes of quantized biases. Where the slot has the format derived for the codes, the bias of every channel is
the dequantized value of its code snapped to that format: it is this value just where the format represents it. So coded
signs come out as the positive one at unit scale; other signs and zero are kept at the scales zero and one; a uniform
grid at unit scale keeps all that is not above a range of more than 53 bits. -/
theorem compiled_biases_snapped {d : Description} {g : Graph} {t : Typing g} {p : Plan} {i : Fin g.size}
    {inFeatures : ℕ} {weights bias : List Float} {kernelQuantizer : Option Quantizer} {q : Quantizer} {f : Format}
    (hg : Graph.ofDescription d = .ok g) (hp : g.compile t = .ok p)
    (hop : (g.layer i).op = .dense inFeatures weights bias kernelQuantizer (some q)) (hf : q.format = .ok f)
    (hslot : (t.get i).formats.get .bias = some f) :
    ∃ s ∈ p.steps, s.name = (g.layer i).name ∧ ∃ units accum result tensor, s.kernel = .dense units accum result ∧
      q.projectTensor bias (g.layer i).features = .ok tensor ∧ units.length = (g.layer i).features ∧
      tensor.values.length = (g.layer i).features ∧
      ∀ (c : ℕ) u, units[c]? = some u → ∃ w code scale v, bias[c]? = some w ∧ tensor.codes[c]? = some code ∧
        tensor.scales[c]? = some scale ∧ tensor.values[c]? = some v ∧ q.SnapsBias f w code scale v u.bias := by
  have hd := Graph.describes_of_isOk hg
  obtain ⟨-, hcount⟩ := (hop ▸ hd.shaped i).lengths_of_dense
  obtain ⟨-, hread⟩ := hd.quantizers hop
  obtain ⟨text, hread⟩ := hread q rfl
  obtain ⟨steps, rfl, hcompile⟩ := Graph.exists_plan_of_compile hp
  have hmem : i ∈ steps.map Step.index := by
    rw [Graph.map_index_steps hcompile, hd.perm.mem_iff]
    exact List.mem_finRange i
  obtain ⟨s, hs, rfl⟩ := List.mem_map.mp hmem
  have his := Graph.isStep_of_mem hcompile hs
  have hk := Graph.compileKernel_of_mem hcompile hs
  obtain ⟨units, accum, result, hkernel, hunits, hbias⟩ :=
    (Graph.assembles_of_compileKernel hk).exists_biases hop hcount
  obtain ⟨tensor, htensor, hvalues, hchannels⟩ := Layer.exists_of_compileBias (Quantizer.isRead_of_read hread)
    (Quantizer.usable_of_read hread) hf hslot hcount hbias
  refine ⟨s, hs, his.name_eq, units, accum, result, tensor, hkernel, htensor, hunits, hvalues, fun c u hu ↦ ?_⟩
  exact hchannels c u.bias (by rw [List.getElem?_map, hu]; rfl)

def signCodes : Binary := { xnor := true }

def biased (quantizer : String) : Description :=
  [⟨"data", [], .input 2⟩, ⟨"unit", ["data"], .dense 1 [0.5, -1.25] (some [-0.5]) none (some quantizer)⟩]

def biasedGraph (q : Quantizer) : Graph :=
  { affineGraph with
    layers := #v[affineGraph.layer affineGraph.input,
      ⟨"unit", .dense 2 [0.5, -1.25] [-0.5] none (some q), [affineGraph.input], 1⟩] }

def biasedTyping (q : Quantizer) (f : Format) : Typing (biasedGraph q) :=
  let f' : Format := default
  #v[⟨{ result := some f' }, 1024⟩,
    ⟨{ weight := some f', bias := some f, accum := some affineAccum, result := some f' }, 1024⟩]

def biasedUnit (bias : Fixed) : Step 2 := ⟨"unit", affineGraph.output, [(affineGraph.input, false)],
  .dense [⟨[⟨512, 10⟩, ⟨-1280, 10⟩], none, bias⟩] affineAccum default⟩

def biasedPlan (bias : Fixed) : Plan := { affineAdjustedPlan with steps := [affineData, biasedUnit bias] }

set_option maxRecDepth 20000 in
theorem compile_biased_nibble :
    Graph.ofDescription (biased "quantized_bits(4,0,1)") = .ok (biasedGraph (.uniform symmetricNibble)) ∧
      (biasedGraph (.uniform symmetricNibble)).resolve {} (biasedGraph (.uniform symmetricNibble)).untyped =
        (biasedTyping (.uniform symmetricNibble) nibbleFormat, .ok ()) ∧
      (biasedGraph (.uniform symmetricNibble)).compile (biasedTyping (.uniform symmetricNibble) nibbleFormat) =
        .ok (biasedPlan ⟨-4, 3⟩) := ⟨rfl, rfl, rfl⟩

/-- On a grid of four bits the bias stays what it is. -/
theorem compiled_biases_snapped_nibble :
    Graph.ofDescription (biased "quantized_bits(4,0,1)") = .ok (biasedGraph (.uniform symmetricNibble)) ∧
    (biasedGraph (.uniform symmetricNibble)).compile (biasedTyping (.uniform symmetricNibble) nibbleFormat) =
      .ok (biasedPlan ⟨-4, 3⟩) ∧ ∃ s ∈ (biasedPlan ⟨-4, 3⟩).steps, s.name = "unit" ∧ ∃ u accum result tensor v,
        s.kernel = .dense [u] accum result ∧ (Quantizer.uniform symmetricNibble).projectTensor [-0.5] 1 = .ok tensor ∧
        tensor.values = [v] ∧ u.bias.value = value v := by
  obtain ⟨hg, -, hp⟩ := compile_biased_nibble
  obtain ⟨s, hs, hname, units, accum, result, tensor, hkernel, htensor, hunits, hvalues, hbiases⟩ :=
    compiled_biases_snapped (g := biasedGraph (.uniform symmetricNibble)) hg hp (i := affineGraph.output) rfl rfl rfl
  obtain ⟨u, rfl⟩ := List.length_eq_one_iff.mp hunits
  obtain ⟨v, hv⟩ := List.length_eq_one_iff.mp hvalues
  obtain ⟨w, code, scale, v', hw, -, -, hv', hsnaps⟩ := hbiases 0 u rfl
  refine ⟨hg, hp, s, hs, hname, u, accum, result, tensor, v, hkernel, htensor, hv, ?_⟩
  rw [hv] at hv'
  cases hv'
  refine (hsnaps.grid symmetricNibble rfl rfl (by decide +kernel)).mpr ?_
  rintro ⟨-, hlarge, -⟩
  exact absurd hlarge (by decide)

set_option maxRecDepth 20000 in
/-- The sign of the bias is minus one, but what is compiled and added is one. -/
theorem compiled_bias_ne_dequantized : Quantizer.read "binary()" = .ok (.binary signCodes) ∧
    Graph.ofDescription (biased "binary()") = .ok (biasedGraph (.binary signCodes)) ∧
    (biasedGraph (.binary signCodes)).resolve {} (biasedGraph (.binary signCodes)).untyped =
      (biasedTyping (.binary signCodes) .bit, .ok ()) ∧ (Quantizer.binary signCodes).format = .ok .bit ∧
    (biasedGraph (.binary signCodes)).compile (biasedTyping (.binary signCodes) .bit) = .ok (biasedPlan ⟨1, 0⟩) ∧
    (∃ tensor, (Quantizer.binary signCodes).projectTensor [-0.5] 1 = .ok tensor ∧ tensor.values = [-1]) ∧
    (Fixed.mk 1 0).value = 1 ∧ value (-1) = -1 ∧ (biasedPlan ⟨1, 0⟩).predictRow [0, 0] = .ok [1] := by
  refine ⟨rfl, rfl, rfl, rfl, rfl, ⟨⟨[0], [1], .xnor⟩, rfl, by decide +kernel⟩, Fixed.value_one, ?_, by decide +kernel⟩
  rw [Binary64.value_neg, Binary64.one_exact.2]

end FixedNet

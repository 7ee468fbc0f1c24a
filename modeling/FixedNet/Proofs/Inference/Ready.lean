import FixedNet.Proofs.Inference.Layout
import FixedNet.Proofs.Inference.Slots
import FixedNet.Proofs.Inference.Tables
import FixedNet.Proofs.Precision.Built
import FixedNet.Proofs.Precision.Exported
import FixedNet.Proofs.Precision.Modes
import FixedNet.Proofs.Quantizer.Reading

namespace FixedNet

theorem Recorded.Agrees.failsOnly {ε α : Type} {kind : ε → Prop} {outcome : Except ε α} {r : Recorded α}
    (h : Agrees kind outcome r) : FailsOnly kind outcome := by
  by_cases hr : r.Fits
  · exact failsOnly_of_eq_ok (h.of_fits hr)
  · obtain ⟨e, he, ho⟩ := h.of_not_fits hr
    intro e' h'
    rw [ho] at h'
    cases h'
    exact he

theorem Rounding.round_quarter (r : Rounding) : r.round (1 / 4) = 0 := by
  cases r with
  | down => norm_num [round]
  | nearest => norm_num [round]
  | nearestEven => norm_num [round, Int.fract]

namespace Format

open Binary64 (nearest value)

variable {f : Format} {c : Float}

theorem rawOfNumber_of_coarse (hc : c = 0 ∨ c = 1) (hf : f.frac ≤ -2) : f.rawOfNumber c = 0 := by
  have hvalue : 0 ≤ value c ∧ value c ≤ 1 := by
    rcases hc with rfl | rfl
    · rw [Binary64.value_zero]
      exact ⟨le_rfl, zero_le_one⟩
    · rw [Binary64.one_exact.2]
      exact ⟨zero_le_one, le_rfl⟩
  have hpos := Binary64.two_zpow_pos f.frac
  have hlow : 0 ≤ nearest (value c * 2 ^ f.frac) := Binary64.nearest_nonneg (mul_nonneg hvalue.1 hpos.le)
  have hhigh : nearest (value c * 2 ^ f.frac) ≤ 1 / 4 := by
    have hle : value c * 2 ^ f.frac ≤ 2 ^ (-2 : ℤ) :=
      (mul_le_of_le_one_left hpos.le hvalue.2).trans (zpow_le_zpow_right₀ one_le_two hf)
    calc nearest (value c * 2 ^ f.frac) ≤ nearest (2 ^ (-2 : ℤ)) := Binary64.nearest_mono hle
      _ = 1 / 4 := by rw [Binary64.nearest_zpow (by norm_num)]; norm_num
  have hround : f.rounding.round (nearest (value c * 2 ^ f.frac)) = 0 := by
    have hlow' := f.rounding.round_mono hlow
    have hhigh' := f.rounding.round_mono hhigh
    have hzero := f.rounding.round_intCast 0
    rw [Int.cast_zero] at hzero
    rw [hzero] at hlow'
    rw [f.rounding.round_quarter] at hhigh'
    omega
  rw [rawOfNumber, hround, f.reduce_of_inRange f.inRange_zero]

end Format

theorem Fixed.fits_recordBipolar {x : Fixed} (hraw : -(2 ^ 63) ≤ x.raw ∧ x.raw < 2 ^ 64) (hfine : x.frac < 127)
    (hcoarse : x.frac ≤ -2 → x.raw = 0) : (recordBipolar x).Fits := by
  obtain ⟨raw, frac⟩ := x
  dsimp only at hraw hfine hcoarse
  have hword : FitsWord raw := ⟨by omega, by omega⟩
  have hdouble : FitsWord (raw + raw) := ⟨by omega, by omega⟩
  have hplus : (Fixed.mk raw frac).plus ⟨raw, frac⟩ = ⟨raw + raw, frac⟩ := by simp [plus, rawAt]
  refine Recorded.fits_bind.mpr ⟨(Recorded.fits_add _ _).mpr ((sumFits_iff rfl hword hword).mpr hdouble),
    (Recorded.fits_add _ _).mpr ?_⟩
  change ((Fixed.mk raw frac).plus ⟨raw, frac⟩).SumFits ⟨-1, 0⟩
  rw [hplus]
  -- the sum with -1 is on the finer of the grids of the double and of the integers
  rcases le_or_gt 0 frac with h0 | h0
  · have hpow : (2 : ℤ) ^ frac.toNat ≤ 2 ^ 126 := pow_le_pow_right₀ (by norm_num) (by omega)
    have hpos : (0 : ℤ) < 2 ^ frac.toNat := by positivity
    have hmax : max frac 0 = frac := max_eq_left h0
    refine ⟨.of_frac_eq hmax.symm hdouble, .inr ⟨?_, ?_⟩, ?_⟩
    · simp only [hmax]
      omega
    · simp only [hmax, rawAt, sub_zero]
      exact ⟨by omega, by omega⟩
    · simp only [plus, rawAt, hmax, sub_self, Int.toNat_zero, pow_zero, mul_one, sub_zero]
      exact ⟨by omega, by omega⟩
  · rcases lt_or_ge frac (-1) with h1 | h1
    · have hmax : max frac 0 = 0 := max_eq_right h0.le
      rw [hcoarse (by omega)]
      refine ⟨.inl rfl, .of_frac_eq hmax.symm (by decide), ?_⟩
      simp only [plus, rawAt, hmax, sub_self, Int.toNat_zero, pow_zero, mul_one, add_zero, zero_mul, zero_add]
      decide
    · -- the only grid coarser than the integers on which a code may be other than zero
      obtain rfl : frac = -1 := by omega
      refine ⟨.inr ⟨?_, ?_⟩, .of_frac_eq rfl (by decide), ?_⟩
      · change (max (-1) 0 - -1 : ℤ).toNat < 127
        decide
      · change FitsWord ((raw + raw) * 2 ^ 1)
        exact ⟨by omega, by omega⟩
      · change FitsWord ((raw + raw) * 2 ^ 1 + -1 * 2 ^ 0)
        exact ⟨by omega, by omega⟩

theorem Fixed.exists_decodeBipolar {f : Format} {c : Float} {x : Fixed} (hc : c = 0 ∨ c = 1) (hf : f.frac < 127)
    (h : ofFloat f c = .ok x) : ∃ y, x.decodeBipolar = .ok y := by
  have hgrid := onGrid_ofFloat h
  obtain ⟨-, rfl⟩ := ofFloat_eq_ok_iff.mp h
  exact ⟨_, (recordBipolar_agrees _).of_fits
    (fits_recordBipolar hgrid.inRange.bounds hf (Format.rawOfNumber_of_coarse hc))⟩

namespace Quantizer

variable {q : Quantizer}

theorem exists_projectChannel (hq : q.alpha.Usable) (channel : List Float) :
    ∃ projected, q.projectChannel channel = .ok projected := by
  unfold projectChannel
  cases halpha : q.alpha with
  | fixed a =>
    obtain ⟨hfinite, hpos⟩ := hq a halpha
    exact ⟨_, if_pos (by rw [Bool.and_eq_true, decide_eq_true_iff]; exact ⟨hfinite, hpos⟩)⟩
  | auto => cases q <;> exact ⟨_, rfl⟩

theorem format_of_encoding (hq : q.encoding = .xnor) : q.format = .ok .bit := by
  cases q with
  | uniform u =>
    rw [encoding] at hq
    split at hq
    case isTrue hbinary => exact if_pos hbinary
    case isFalse => cases hq
  | ternary t => cases hq
  | binary b =>
    rw [encoding] at hq
    split at hq
    case isTrue hxnor => exact congrArg Except.ok (if_pos hxnor)
    case isFalse => cases hq

theorem exists_projectTensor (hq : q.alpha.Usable) {values : List Float} {channels : ℕ} (hchannels : channels ≠ 0)
    (hdvd : channels ∣ values.length) : ∃ tensor, q.projectTensor values channels = .ok tensor := by
  rcases eq_or_ne values [] with rfl | hvalues
  · exact ⟨_, projectTensor_eq_ok_iff.mpr ⟨⟨hchannels, hdvd⟩, .inl ⟨rfl, rfl⟩⟩⟩
  · obtain ⟨projected, hprojected⟩ : ∃ projected,
        (stretches (values.length / channels) channels values).mapM q.projectChannel = .ok projected :=
      exists_mapM_eq_ok fun channel _ ↦ exists_projectChannel hq channel
    exact ⟨_, projectTensor_eq_ok_iff.mpr ⟨⟨hchannels, hdvd⟩, .inr ⟨hvalues, projected, hprojected, rfl⟩⟩⟩

end Quantizer

namespace Layer

variable {n : ℕ} {layer : Layer n} {c : Config} {formats : SlotMap Format}

/-- Just the slots that need a format have one. -/
def Typed (layer : Layer n) (formats : SlotMap Format) : Prop :=
  ∀ p, (∃ f, formats.get p = some f) ↔ p ∈ layer.op.requiredSlots

/-- An override moves the codes of the kernel to a grid of 127 fractional bits or more. -/
structure Overrefined (layer : Layer n) (c : Config) (f : Format) : Prop where
  kernel : layer.op.kernelEncoding = .xnor
  frac_ge : 127 ≤ f.frac
  override : (((c.scope none).override .weight).merge ((c.scope (some layer.name)).override .weight)).integer =
    some f.integer

/-- The numbers that a layer puts on the grids of its slots, and the names under which they are reported. -/
inductive HasParameter (layer : Layer n) : String → List Float → Prop
  | weights {inFeatures : ℕ} {weights bias : List Float} {kernelQuantizer biasQuantizer : Option Quantizer}
      (op : layer.op = .dense inFeatures weights bias kernelQuantizer biasQuantizer) :
      HasParameter layer "weights" weights
  | codes {inFeatures : ℕ} {weights bias : List Float} {q : Quantizer} {biasQuantizer : Option Quantizer}
      {tensor : CodedTensor} (op : layer.op = .dense inFeatures weights bias (some q) biasQuantizer)
      (htensor : q.projectTensor weights layer.features = .ok tensor) : HasParameter layer "weights" tensor.codes
  | scales {inFeatures : ℕ} {weights bias : List Float} {q : Quantizer} {biasQuantizer : Option Quantizer}
      {tensor : CodedTensor} (op : layer.op = .dense inFeatures weights bias (some q) biasQuantizer)
      (htensor : q.projectTensor weights layer.features = .ok tensor) : HasParameter layer "scale" tensor.scales
  | bias {inFeatures : ℕ} {weights bias : List Float} {kernelQuantizer biasQuantizer : Option Quantizer}
      (op : layer.op = .dense inFeatures weights bias kernelQuantizer biasQuantizer) : HasParameter layer "bias" bias
  | quantizedBias {inFeatures : ℕ} {weights bias : List Float} {kernelQuantizer : Option Quantizer} {q : Quantizer}
      {tensor : CodedTensor} (op : layer.op = .dense inFeatures weights bias kernelQuantizer (some q))
      (htensor : q.projectTensor bias layer.features = .ok tensor) : HasParameter layer "bias" tensor.values
  | gains {gains shifts : List Float} (op : layer.op = .batchNorm gains shifts) : HasParameter layer "scale" gains
  | shifts {gains shifts : List Float} (op : layer.op = .batchNorm gains shifts) : HasParameter layer "shift" shifts

inductive CompileFails (layer : Layer n) (c : Config) (formats : SlotMap Format) : CompileError → Prop
  | nonFinite {parameter : String} {values : List Float} {x : Float} (h : layer.HasParameter parameter values)
      (hx : x ∈ values) (hfinite : x.isFinite = false) : CompileFails layer c formats (.nonFinite layer.name parameter)
  | overflow {f : Format} (o : Operation) (hf : formats.get .weight = some f) (h : layer.Overrefined c f) :
      CompileFails layer c formats (.numeric (.overflow o))

theorem FollowsPrecedence.typed {inputs : List Format} (h : layer.FollowsPrecedence c inputs formats) :
    layer.Typed formats := by
  intro p
  constructor
  · rintro ⟨f, hf⟩
    by_contra hp
    rw [h.others p hp] at hf
    cases hf
  · intro hp
    by_cases haccum : p = .accum
    · subst haccum
      obtain ⟨base, f, -, hf, -⟩ := h.accum hp
      exact ⟨f, hf⟩
    · obtain ⟨base, f, -, hf, -⟩ := h.operands p hp haccum
      exact ⟨f, hf⟩

theorem FollowsPrecedence.overrefined {inputs : List Format} (h : layer.FollowsPrecedence c inputs formats)
    (hkernel : layer.op.kernelEncoding = .xnor) {f : Format} (hf : formats.get .weight = some f)
    (hfrac : 127 ≤ f.frac) : layer.Overrefined c f := by
  refine ⟨hkernel, hfrac, ?_⟩
  have hmem : Slot.weight ∈ layer.op.requiredSlots := h.typed .weight |>.mp ⟨f, hf⟩
  obtain ⟨base, f', hbase, hf', hsettles⟩ := h.operands .weight hmem (by decide)
  obtain rfl : f = f' := Option.some.inj (hf.symm.trans hf')
  -- coded kernels start from one unsigned bit
  have hbit : base.integer = 1 := by
    unfold Op.kernelEncoding at hkernel
    unfold baseFormat at hbase
    split at hkernel
    case h_1 inFeatures weights bias kernelQuantizer biasQuantizer hop =>
      rw [hop] at hbase
      cases kernelQuantizer with
      | none => cases hkernel
      | some q =>
        have hbit := (Quantizer.format_of_encoding hkernel).symm.trans hbase
        cases hbit
        rfl
    case h_2 => cases hkernel
  have htotal := f.total_bounds.2
  rw [Format.frac] at hfrac
  rw [Override.merge]
  have hinteger := hsettles.integer_eq
  cases hoverride :
    (((c.scope (some layer.name)).override .weight).integer.or ((c.scope none).override .weight).integer) with
  | some integer =>
    rw [hoverride] at hinteger
    exact congrArg some hinteger.symm
  | none =>
    rw [hoverride, Option.getD_none, hbit] at hinteger
    omega

theorem Typed.failsOnly_formatAt {P : CompileError → Prop} (h : layer.Typed formats) {p : Slot}
    (hp : p ∈ layer.op.requiredSlots) : FailsOnly P (layer.formatAt formats p) := by
  obtain ⟨f, hf⟩ := (h p).mpr hp
  exact failsOnly_of_eq_ok (formatAt_eq_ok_iff.mpr hf)

theorem ensureFinite_eq_ok_iff {parameter : String} {values : List Float} :
    layer.ensureFinite parameter values = .ok () ↔ ∀ x ∈ values, x.isFinite = true := by
  unfold ensureFinite
  rw [← List.all_eq_true]
  split
  case isTrue hall => exact iff_of_true rfl hall
  case isFalse hall => exact iff_of_false (by simp) hall

theorem HasParameter.failsOnly_ensureFinite {parameter : String} {values : List Float}
    (h : layer.HasParameter parameter values) :
    FailsOnly (layer.CompileFails c formats) (layer.ensureFinite parameter values) := by
  intro e he
  unfold ensureFinite at he
  split at he
  case isTrue => cases he
  case isFalse hall =>
    cases he
    rw [List.all_eq_true] at hall
    push Not at hall
    obtain ⟨x, hx, hfinite⟩ := hall
    exact .nonFinite h hx (Bool.eq_false_iff.mpr hfinite)

theorem HasParameter.failsOnly_snap {parameter : String} {values : List Float} (h : layer.HasParameter parameter values)
    (f : Format) : FailsOnly (layer.CompileFails c formats) (layer.snap parameter values f) := by
  refine h.failsOnly_ensureFinite.bind fun _ hfinite ↦ ?_
  obtain ⟨xs, hxs⟩ := exists_mapM_eq_ok fun x hx ↦ ⟨_, Fixed.ofFloat_ok f (ensureFinite_eq_ok_iff.mp hfinite x hx)⟩
  exact failsOnly_of_eq_ok (mapError_eq_ok_iff.mpr hxs)

theorem failsOnly_decode (hover : ∀ f, formats.get .weight = some f → 127 ≤ f.frac → layer.Overrefined c f) {f : Format}
    (hf : formats.get .weight = some f) {parameter : String} {codes : List Float} {xs : List Fixed}
    (hcodes : ∀ x ∈ codes, x = 0 ∨ x = 1) (hxs : layer.snap parameter codes f = .ok xs) :
    FailsOnly (layer.CompileFails c formats) ((xs.mapM Fixed.decodeBipolar).mapError CompileError.numeric) := by
  rcases lt_or_ge f.frac 127 with hfrac | hfrac
  · have hdecode : ∀ x ∈ xs, ∃ y, x.decodeBipolar = .ok y := by
      intro x hx
      obtain ⟨code, hcode, hcx⟩ := exists_of_mem_snap hxs x hx
      exact Fixed.exists_decodeBipolar (hcodes code hcode) hfrac hcx
    obtain ⟨ys, hys⟩ := exists_mapM_eq_ok hdecode
    exact failsOnly_of_eq_ok (mapError_eq_ok_iff.mpr hys)
  · refine (FailsOnly.mapM fun x _ ↦ (recordBipolar_agrees x).failsOnly).mapError ?_
    rintro e ⟨o, rfl⟩
    exact .overflow o hf (hover f hf hfrac)

section Dense

variable {inFeatures : ℕ} {weights bias : List Float} {kernelQuantizer biasQuantizer : Option Quantizer}

theorem failsOnly_compileWeights (ht : layer.Typed formats)
    (hover : layer.op.kernelEncoding = .xnor → ∀ f, formats.get .weight = some f → 127 ≤ f.frac → layer.Overrefined c f)
    (hop : layer.op = .dense inFeatures weights bias kernelQuantizer biasQuantizer)
    (hlength : weights.length = layer.features * inFeatures) (hpos : 0 < layer.features)
    (hread : ∀ q, kernelQuantizer = some q → ∃ text, Quantizer.read text = .ok q) :
    FailsOnly (layer.CompileFails c formats) (layer.compileWeights formats weights kernelQuantizer) := by
  have hweight : Slot.weight ∈ layer.op.requiredSlots := by simp [hop, Op.requiredSlots]
  refine (ht.failsOnly_formatAt hweight).bind fun f hf ↦ ?_
  refine (HasParameter.weights hop).failsOnly_ensureFinite.bind fun _ _ ↦ ?_
  cases kernelQuantizer with
  | none => exact ((HasParameter.weights hop).failsOnly_snap f).bind fun values _ ↦ failsOnly_ok _
  | some q =>
    obtain ⟨text, hq⟩ := hread q rfl
    obtain ⟨tensor, htensor⟩ := Quantizer.exists_projectTensor (Quantizer.usable_of_read hq) hpos.ne'
      (hlength ▸ Nat.dvd_mul_right layer.features inFeatures)
    refine (failsOnly_of_eq_ok (mapError_eq_ok_iff.mpr htensor)).bind fun tensor' htensor' ↦ ?_
    have htensor' := mapError_eq_ok_iff.mp htensor'
    refine ((HasParameter.codes hop htensor').failsOnly_snap f).bind fun codes hcodes ↦ ?_
    have hfinish (values : List Fixed) : FailsOnly (layer.CompileFails c formats)
        (if layer.op.hasKernelScale then do
          let scales ← layer.snap "scale" tensor'.scales (← layer.formatAt formats .scale)
          return (values, scales.map some)
        else return (values, List.replicate layer.features none)) := by
      split
      case isTrue hscale =>
        have hmem : Slot.scale ∈ layer.op.requiredSlots := by
          rw [hop] at hscale ⊢
          simp [Op.requiredSlots, hscale]
        refine (ht.failsOnly_formatAt hmem).bind fun f' _ ↦ ?_
        exact ((HasParameter.scales hop htensor').failsOnly_snap f').bind fun scales _ ↦ failsOnly_ok _
      case isFalse => exact failsOnly_ok _
    cases hencoding : q.encoding with
    | direct => exact hfinish codes
    | xnor =>
      have hkernel : layer.op.kernelEncoding = .xnor := by rw [hop]; exact hencoding
      exact (failsOnly_decode (hover hkernel) (formatAt_eq_ok_iff.mp hf)
        (Quantizer.codes_of_projectTensor hencoding htensor') hcodes).bind
          fun values _ ↦ hfinish values

theorem failsOnly_compileBias (ht : layer.Typed formats)
    (hop : layer.op = .dense inFeatures weights bias kernelQuantizer biasQuantizer)
    (hlength : bias.length = layer.features) (hpos : 0 < layer.features)
    (hread : ∀ q, biasQuantizer = some q → ∃ text, Quantizer.read text = .ok q) :
    FailsOnly (layer.CompileFails c formats) (layer.compileBias formats bias biasQuantizer) := by
  have hbias : Slot.bias ∈ layer.op.requiredSlots := by simp [hop, Op.requiredSlots]
  refine (ht.failsOnly_formatAt hbias).bind fun f _ ↦ ?_
  refine (HasParameter.bias hop).failsOnly_ensureFinite.bind fun _ _ ↦ ?_
  cases biasQuantizer with
  | none => exact (HasParameter.bias hop).failsOnly_snap f
  | some q =>
    obtain ⟨text, hq⟩ := hread q rfl
    obtain ⟨tensor, htensor⟩ := Quantizer.exists_projectTensor (Quantizer.usable_of_read hq) hpos.ne'
      (dvd_of_eq hlength.symm)
    refine (failsOnly_of_eq_ok (mapError_eq_ok_iff.mpr htensor)).bind fun tensor' htensor' ↦ ?_
    exact (HasParameter.quantizedBias hop (mapError_eq_ok_iff.mp htensor')).failsOnly_snap f

end Dense

end Layer

theorem Op.result_mem_requiredSlots (op : Op) : .result ∈ op.requiredSlots := by
  cases op <;> simp [requiredSlots]

namespace Graph

variable {g : Graph} {d : Description} {c : Config} {t t' : Typing g}

/-- Formats and table sizes as resolution leaves them, and as changes of modes keep them. -/
structure Ready (g : Graph) (c : Config) (t : Typing g) : Prop where
  typed : ∀ i, (g.layer i).Typed (t.get i).formats
  sizes : ∀ i, 0 < (t.get i).tableSize ∧ (t.get i).tableSize < 2 ^ 64
  codes : ∀ i, (g.layer i).op.kernelEncoding = .xnor → ∀ f, (t.get i).formats.get .weight = some f → 127 ≤ f.frac →
    (g.layer i).Overrefined c f

theorem ready_of_resolve (hg : Graph.ofDescription d = .ok g) (hc : c.Built) (h : g.resolve c t = (t', .ok ())) :
    g.Ready c t' := by
  have hlayers (i : Fin g.size) : ∃ inputs, (g.layer i).FollowsPrecedence c inputs (t'.get i).formats ∧
      (t'.get i).tableSize = (g.layer i).resolveTableSize c := by
    obtain ⟨inputs, -, hlayer⟩ := bind_eq_ok_iff.mp (resolveLayer_of_resolve hg h i)
    obtain ⟨formats, hformats, hlayer⟩ := bind_eq_ok_iff.mp hlayer
    rw [← pure_eq_ok_iff.mp hlayer]
    exact ⟨inputs, Layer.followsPrecedence_of_resolveFormats hformats, rfl⟩
  refine ⟨fun i ↦ ?_, fun i ↦ ?_, fun i hkernel f hf hfrac ↦ ?_⟩
  · obtain ⟨inputs, hfollows, -⟩ := hlayers i
    exact hfollows.typed
  · obtain ⟨inputs, -, hsize⟩ := hlayers i
    rw [hsize]
    exact (g.layer i).resolveTableSize_bounds hc
  · obtain ⟨inputs, hfollows, -⟩ := hlayers i
    exact hfollows.overrefined hkernel hf hfrac

theorem Ready.firstUnresolved_eq_none (h : g.Ready c t) : g.firstUnresolved t = none := by
  refine List.findSome?_eq_none_iff.mpr fun i _ ↦ ?_
  rw [Option.map_eq_none_iff]
  refine List.find?_eq_none.mpr fun p hp ↦ ?_
  obtain ⟨f, hf⟩ := (h.typed i p).mpr hp
  rw [hf]
  simp

theorem Ready.of_apply (h : g.Ready c t) {m : OutputModes} {count : ℕ} (hm : m.apply g t = .ok (t', count)) :
    g.Ready c t' := by
  have hsame := sameGrids_of_apply hm
  refine ⟨fun i p ↦ ?_, fun i ↦ ?_, fun i hkernel f hf ↦ ?_⟩
  · rw [← h.typed i p]
    by_cases hp : p = .result
    · subst hp
      obtain ⟨f, hf⟩ := (h.typed i .result).mpr (Op.result_mem_requiredSlots _)
      obtain ⟨f', hf', -⟩ := hsame.result i f hf
      exact iff_of_true ⟨f', hf'⟩ ⟨f, hf⟩
    · rw [hsame.formats i p hp]
  · rw [tableSize_of_apply hm]
    exact h.sizes i
  · rw [hsame.formats i .weight (by decide)] at hf
    exact h.codes i hkernel f hf

theorem Ready.exists_apply (h : g.Ready c t) (m : OutputModes) : ∃ t' count, m.apply g t = .ok (t', count) := by
  have hnone : m.untypedTarget? g t = none := by
    refine List.find?_eq_none.mpr fun i _ ↦ ?_
    obtain ⟨f, hf⟩ := (h.typed i .result).mpr (Op.result_mem_requiredSlots _)
    rw [show (t.get i).formats.result = some f from hf]
    simp
  unfold OutputModes.apply
  rw [hnone]
  exact ⟨_, _, rfl⟩

theorem Ready.exists_adjustModes (h : g.Ready c t) (passes : List OutputModes) :
    ∃ t', g.adjustModes passes t = .ok t' ∧ g.Ready c t' := by
  induction passes generalizing t with
  | nil => exact ⟨t, rfl, h⟩
  | cons m passes ih =>
    obtain ⟨t₁, count, happly⟩ := h.exists_apply m
    obtain ⟨t', hrest, ht'⟩ := ih (h.of_apply happly)
    refine ⟨t', ?_, ht'⟩
    rw [adjustModes, List.foldlM_cons]
    exact bind_eq_ok_iff.mpr ⟨t₁, map_eq_ok_iff.mpr ⟨_, happly, rfl⟩, hrest⟩

theorem Ready.exists_softmaxInputBits (h : g.Ready c t) (i : Fin g.size) :
    ∃ bits, g.softmaxInputBits t i = .ok bits ∧ -64 ≤ bits ∧ bits ≤ 128 := by
  unfold softmaxInputBits
  split
  · exact ⟨0, rfl, by norm_num, by norm_num⟩
  case h_2 j rest hinputs =>
    split
    · exact ⟨2, rfl, by norm_num, by norm_num⟩
    · obtain ⟨f, hf⟩ := (h.typed j .result).mpr (Op.result_mem_requiredSlots _)
      exact ⟨f.integer, map_eq_ok_iff.mpr ⟨f, Layer.formatAt_eq_ok_iff.mpr hf, rfl⟩, f.integer_bounds⟩

theorem Ready.failsOnly_compileSoftmax (h : g.Ready c t) {i : Fin g.size} (hop : (g.layer i).op = .softmax)
    {P : CompileError → Prop}
    (hexp : ∀ bits f, -64 ≤ bits → bits ≤ 128 →
      FailsOnly P ((ExpTable.make (t.get i).tableSize bits f).mapError .numeric))
    (hinv : ∀ f, FailsOnly P
      ((InvTable.make (t.get i).tableSize (Binary64.ofInt (g.layer i).features) f).mapError .numeric)) :
    FailsOnly P (g.compileSoftmax t i) := by
  have hformat {p : Slot} (hp : p ∈ Op.softmax.requiredSlots) :
      FailsOnly P ((g.layer i).formatAt (t.get i).formats p) := (h.typed i).failsOnly_formatAt (hop ▸ hp)
  obtain ⟨hsize, -⟩ := h.sizes i
  obtain ⟨bits, hbits, hlo, hhi⟩ := h.exists_softmaxInputBits i
  unfold compileSoftmax
  dsimp only
  rw [if_neg hsize.ne', hbits]
  refine (hformat (by decide)).bind fun f _ ↦ ?_
  refine (hexp bits f hlo hhi).bind fun exp _ ↦ ?_
  refine (hformat (by decide)).bind fun f' _ ↦ ?_
  refine (hinv f').bind fun inv _ ↦ ?_
  refine (hformat (by decide)).bind fun accum _ ↦ ?_
  exact (hformat (by decide)).bind fun result _ ↦ failsOnly_ok _

theorem Ready.failsOnly_compileKernel (h : g.Ready c t) (hd : g.Describes d) (hm : g.Measured) (i : Fin g.size)
    (hexp : (g.layer i).op = .softmax → Binary64.ExpFinite) :
    FailsOnly ((g.layer i).CompileFails c (t.get i).formats) (g.compileKernel t i) := by
  have hformat {op : Op} (hop : (g.layer i).op = op) {p : Slot} (hp : p ∈ op.requiredSlots) :
      FailsOnly ((g.layer i).CompileFails c (t.get i).formats) ((g.layer i).formatAt (t.get i).formats p) :=
    (h.typed i).failsOnly_formatAt (hop ▸ hp)
  have hresult : FailsOnly ((g.layer i).CompileFails c (t.get i).formats)
      ((g.layer i).formatAt (t.get i).formats .result) := hformat rfl (Op.result_mem_requiredSlots _)
  unfold compileKernel
  dsimp only
  cases hop : (g.layer i).op with
  | input | activation | concatenate => exact hresult.bind fun result _ ↦ failsOnly_ok _
  | dense inFeatures weights bias kernelQuantizer biasQuantizer =>
    obtain ⟨hweights, hbias⟩ := (hop ▸ hm.shaped i).lengths_of_dense
    obtain ⟨hkernel, hbiases⟩ := hd.quantizers hop
    have hpos := hm.features_pos i
    refine (Layer.failsOnly_compileWeights (h.typed i) (h.codes i) hop hweights hpos hkernel).bind fun _ _ ↦ ?_
    refine (Layer.failsOnly_compileBias (h.typed i) hop hbias hpos hbiases).bind fun _ _ ↦ ?_
    refine (hformat hop (by simp [Op.requiredSlots])).bind fun accum _ ↦ ?_
    exact hresult.bind fun result _ ↦ failsOnly_ok _
  | batchNorm gains shifts =>
    refine (hformat hop (by simp [Op.requiredSlots])).bind fun f _ ↦ ?_
    refine ((Layer.HasParameter.gains hop).failsOnly_snap f).bind fun _ _ ↦ ?_
    refine (hformat hop (by simp [Op.requiredSlots])).bind fun f' _ ↦ ?_
    refine ((Layer.HasParameter.shifts hop).failsOnly_snap f').bind fun _ _ ↦ ?_
    refine (hformat hop (by simp [Op.requiredSlots])).bind fun accum _ ↦ ?_
    exact hresult.bind fun result _ ↦ failsOnly_ok _
  | softmax =>
    obtain ⟨-, hword⟩ := h.sizes i
    refine h.failsOnly_compileSoftmax hop (fun bits f hlo hhi ↦ ?_) fun f ↦ ?_
    · obtain ⟨exp, hmake⟩ := ExpTable.exists_make (hexp hop) hword hlo hhi f
      exact failsOnly_of_eq_ok (mapError_eq_ok_iff.mpr hmake)
    · obtain ⟨inv, hmake⟩ := InvTable.exists_make hword (hm.features_pos i).ne' f
      exact failsOnly_of_eq_ok (mapError_eq_ok_iff.mpr hmake)
  | add =>
    refine (hformat hop (by decide)).bind fun accum _ ↦ ?_
    exact hresult.bind fun result _ ↦ failsOnly_ok _

theorem Ready.failsOnly_compile (h : g.Ready c t) (hd : g.Describes d) (hm : g.Measured)
    (hexp : (∃ i, (g.layer i).op = .softmax) → Binary64.ExpFinite) :
    FailsOnly (fun e ↦ ∃ i, (g.layer i).CompileFails c (t.get i).formats e) (g.compile t) := by
  unfold compile
  rw [h.firstUnresolved_eq_none]
  refine (FailsOnly.mapM fun i _ ↦ ?_).bind fun steps _ ↦ failsOnly_ok _
  have hkernel := h.failsOnly_compileKernel hd hm i fun hop ↦ hexp ⟨i, hop⟩
  exact FailsOnly.bind (fun e he ↦ ⟨i, hkernel e he⟩) fun k _ ↦ failsOnly_ok _

end Graph

/-- A resolved network whose sizes fit into words compiles unless a parameter is not finite, or an override moves the
codes of a kernel to a grid of 127 fractional bits or more; softmax layers need an exponential to rely on. Just the
required slots have formats, tables have entries, and modes of outputs can be changed, however often. -/
theorem resolved_compiles {d : Description} {g : Graph} {c : Config} {t t' : Typing g}
    (hg : Graph.ofDescription d = .ok g) (hc : c.Built) (h : g.resolve c t = (t', .ok ())) :
    (∀ i p, (∃ f, (t'.get i).formats.get p = some f) ↔ p ∈ (g.layer i).op.requiredSlots) ∧
      g.firstUnresolved t' = none ∧ (∀ i, 1 ≤ (t'.get i).tableSize) ∧
      ∀ passes, ∃ adjusted, g.adjustModes passes t' = .ok adjusted ∧
        (d.Sized → ((∃ i, (g.layer i).op = .softmax) → Binary64.ExpFinite) →
          ∀ e, g.compile adjusted = .error e → ∃ i, (g.layer i).CompileFails c (adjusted.get i).formats e) := by
  have hready := Graph.ready_of_resolve hg hc h
  refine ⟨hready.typed, hready.firstUnresolved_eq_none, fun i ↦ (hready.sizes i).1, fun passes ↦ ?_⟩
  obtain ⟨adjusted, hadjusted, hready'⟩ := hready.exists_adjustModes passes
  refine ⟨adjusted, hadjusted, fun hsize ↦ ?_⟩
  exact hready'.failsOnly_compile (Graph.describes_of_isOk hg) (Graph.measured hg hsize)

def coded : Description :=
  [⟨"data", [], .input 1⟩, ⟨"unit", ["data"], .dense 1 [0.5] none (some "binary(alpha=1)") none⟩]

def fineConfig : Config :=
  ((Config.set {} "LayerName.unit.Precision.weight.width" "64").1.set "LayerName.unit.Precision.weight.integer" "-63").1

set_option maxRecDepth 20000 in
theorem compile_coded : ∃ g t, Graph.ofDescription coded = .ok g ∧ g.resolve fineConfig g.untyped = (t, .ok ()) ∧
    (List.finRange g.size).all (fun i ↦ !((g.layer i).op matches .softmax)) = true ∧
      g.compile t = .error (.numeric (.overflow .alignment)) := ⟨_, _, rfl, rfl, rfl, rfl⟩

theorem resolved_compiles_coded : ∃ g t, Graph.ofDescription coded = .ok g ∧ fineConfig.Built ∧
    g.resolve fineConfig g.untyped = (t, .ok ()) ∧ g.compile t = .error (.numeric (.overflow .alignment)) ∧
      (∀ i p, (∃ f, (t.get i).formats.get p = some f) ↔ p ∈ (g.layer i).op.requiredSlots) ∧
      ∃ i, (g.layer i).CompileFails fineConfig (t.get i).formats (.numeric (.overflow .alignment)) := by
  have hbuilt : fineConfig.Built := .set _ _ (.set _ _ .default)
  obtain ⟨g, t, hg, ht, hops, hcompile⟩ := compile_coded
  have hsoftmax : ¬ ∃ i, (g.layer i).op = .softmax := by
    rintro ⟨i, hop⟩
    have hi := List.all_eq_true.mp hops i (List.mem_finRange i)
    rw [hop] at hi
    cases hi
  obtain ⟨htyped, -, -, hpasses⟩ := resolved_compiles hg hbuilt ht
  obtain ⟨adjusted, hadjusted, hfails⟩ := hpasses []
  cases pure_eq_ok_iff.mp hadjusted
  have hsize : coded.Sized := ⟨fun _ ↦ 1, by decide, by decide⟩
  exact ⟨g, t, hg, hbuilt, ht, hcompile, htyped, hfails hsize (absurd · hsoftmax) _ hcompile⟩

def uncounted : Description :=
  [⟨"x", [], .input (2 ^ 62)⟩, ⟨"all", ["x", "x", "x", "x"], .concatenate⟩, ⟨"scores", ["all"], .softmax⟩]

def uncountedGraph : Graph :=
  let x := scoredGraph.input
  let scores := scoredGraph.layer scoredGraph.output
  { scoredGraph with
    layers := #v[⟨"x", .input, [], 2 ^ 62⟩, ⟨"all", .concatenate, [x, x, x, x], 0⟩,
      ⟨"scores", .softmax, scores.inputs, 0⟩] }

def uncountedTyping : Typing uncountedGraph :=
  let f : Format := default
  #v[⟨{ result := some f }, 1024⟩, ⟨{ result := some f }, 1024⟩,
    ⟨{ expTable := some expTableDefault, invTable := some invTableDefault, accum := some expTableDefault,
       result := some f }, 1024⟩]

set_option maxRecDepth 20000 in
theorem resolve_uncounted : Graph.ofDescription uncounted = .ok uncountedGraph ∧
    uncountedGraph.resolve {} uncountedGraph.untyped = (uncountedTyping, .ok ()) := ⟨rfl, rfl⟩

theorem compileSoftmax_uncounted : ∃ x,
    uncountedGraph.compileSoftmax uncountedTyping uncountedGraph.output = .error (.numeric (.nonFinite x)) := by
  obtain ⟨hg, ht⟩ := resolve_uncounted
  have hready := Graph.ready_of_resolve hg .default ht
  have hsize : (uncountedTyping.get uncountedGraph.output).tableSize = 1024 := rfl
  have hfeatures : (uncountedGraph.layer uncountedGraph.output).features = 0 := rfl
  cases h : uncountedGraph.compileSoftmax uncountedTyping uncountedGraph.output with
  | ok k =>
    -- the first entry of the second table would be a quotient by zero
    obtain ⟨-, bits, f, exp, f', inv, -, -, -, -, -, -, hinv, -⟩ := Graph.compileSoftmax_eq_ok_iff.mp h
    rw [hsize, hfeatures] at hinv
    obtain ⟨entries, hentries, -⟩ := bind_eq_ok_iff.mp hinv
    exact absurd (isFinite_of_tableEntries hentries (by decide : 0 < 1024)) (by decide +kernel)
  | error e =>
    have hmake : FailsOnly (fun e ↦ ∃ x, e = .numeric (.nonFinite x))
        (uncountedGraph.compileSoftmax uncountedTyping uncountedGraph.output) := by
      have htable {α : Type} {x : Except NumericError α} (hx : FailsOnly (fun e ↦ ∃ y, e = .nonFinite y) x) :
          FailsOnly (fun e ↦ ∃ y, e = .numeric (.nonFinite y)) (x.mapError CompileError.numeric) :=
        hx.mapError fun e ⟨y, hy⟩ ↦ ⟨y, congrArg CompileError.numeric hy⟩
      exact hready.failsOnly_compileSoftmax rfl
        (fun bits f _ _ ↦ htable ((failsOnly_tableEntries _ _ _).bind fun _ _ ↦ failsOnly_ok _))
        fun f ↦ htable ((failsOnly_tableEntries _ _ _).bind fun _ _ ↦ failsOnly_ok _)
    obtain ⟨x, rfl⟩ := hmake e h
    exact ⟨x, rfl⟩

set_option maxRecDepth 20000 in
/-- Where the number of features wraps around to zero, the reciprocals of a softmax layer cannot be tabled. -/
theorem resolved_not_compiled : Graph.ofDescription uncounted = .ok uncountedGraph ∧ Config.Built {} ∧
    uncountedGraph.resolve {} uncountedGraph.untyped = (uncountedTyping, .ok ()) ∧
      ∃ x, uncountedGraph.compile uncountedTyping = .error (.numeric (.nonFinite x)) := by
  obtain ⟨x, hx⟩ := compileSoftmax_uncounted
  have hstep : uncountedGraph.compileStep uncountedTyping uncountedGraph.output = .error (.numeric (.nonFinite x)) := by
    change (uncountedGraph.compileSoftmax uncountedTyping uncountedGraph.output >>= _) = _
    rw [hx]
    rfl
  refine ⟨resolve_uncounted.1, .default, resolve_uncounted.2, x, ?_⟩
  have horder : uncountedGraph.order.mapM (uncountedGraph.compileStep uncountedTyping) =
      .error (.numeric (.nonFinite x)) := by
    rw [show uncountedGraph.order = [uncountedGraph.input, ⟨1, by decide⟩, uncountedGraph.output] from rfl]
    rw [List.mapM_cons, List.mapM_cons, List.mapM_cons, hstep]
    rfl
  change (uncountedGraph.order.mapM (uncountedGraph.compileStep uncountedTyping) >>= _) = _
  rw [horder]
  rfl

end FixedNet

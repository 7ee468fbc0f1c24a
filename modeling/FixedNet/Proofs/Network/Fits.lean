import FixedNet.Network.Layer
import FixedNet.Proofs.Outcome

namespace FixedNet

def IsQuantizerText (text : String) : Prop := ∃ q, Quantizer.read text = .ok q

def IsActivationText (text : String) : Prop :=
  text = "linear" ∨ text = "relu" ∨ text = "softmax" ∨ ∃ q, Quantizer.read text = .ok q ∧ q.alpha.isUnit

/-- Whether a layer with inputs of the given widths makes sense and has the width that stands last, where products and
sums of widths are held as `count` says: as they are, or in a word. -/
inductive LayerKind.Fits (count : ℕ → ℕ) : LayerKind → List ℕ → ℕ → Prop
  | input {features : ℕ} (positive : 0 < features) : Fits count (.input features) [] features
  | dense {units width : ℕ} {weights : List Float} {bias : Option (List Float)} {kernel biases : Option String}
      (positive : 0 < units) (weights_length : weights.length = count (units * width))
      (bias_length : ∀ b ∈ bias, b.length = units) (kernel_text : ∀ t ∈ kernel, IsQuantizerText t)
      (bias_text : ∀ t ∈ biases, IsQuantizerText t) : Fits count (.dense units weights bias kernel biases) [width] units
  | batchNorm {width : ℕ} {gamma beta mean variance : List Float} {epsilon : Float}
      (gamma_length : gamma.length = width) (beta_length : beta.length = width) (mean_length : mean.length = width)
      (variance_length : variance.length = width) (positive : ∀ v ∈ variance, ¬ v + epsilon ≤ 0) :
      Fits count (.batchNorm gamma beta mean variance epsilon) [width] width
  | activation {width : ℕ} {function : String} (text : IsActivationText function) :
      Fits count (.activation function) [width] width
  | softmax {width : ℕ} : Fits count .softmax [width] width
  | add {width : ℕ} {widths : List ℕ} (several : 2 ≤ widths.length) (equal : ∀ w ∈ widths, w = width) :
      Fits count .add widths width
  | concatenate {widths : List ℕ} (several : 2 ≤ widths.length) : Fits count .concatenate widths (count widths.sum)

namespace LayerKind

/-- What a layer becomes behind inputs of the given widths, and its own width. -/
inductive Builds : LayerKind → List ℕ → Op → ℕ → Prop
  | input {features : ℕ} (positive : 0 < features) : Builds (.input features) [] .input features
  | dense {units inFeatures : ℕ} {weights : List Float} {bias : Option (List Float)} {kernel biases : Option String}
      {kernelQuantizer biasQuantizer : Option Quantizer} (positive : 0 < units)
      (weights_length : weights.length = word64 (units * inFeatures))
      (bias_length : (bias.getD (List.replicate units 0)).length = units)
      (kernel_eq : readOptional kernel = .ok kernelQuantizer) (bias_eq : readOptional biases = .ok biasQuantizer) :
      Builds (.dense units weights bias kernel biases) [inFeatures]
        (.dense inFeatures weights (bias.getD (List.replicate units 0)) kernelQuantizer biasQuantizer) units
  | batchNorm {width : ℕ} {gamma beta mean variance : List Float} {epsilon : Float} {channels : List (Float × Float)}
      (gamma_length : gamma.length = width) (beta_length : beta.length = width) (mean_length : mean.length = width)
      (variance_length : variance.length = width)
      (channels_eq : foldChannels epsilon gamma beta mean variance = .ok channels) :
      Builds (.batchNorm gamma beta mean variance epsilon) [width]
        (.batchNorm (channels.map Prod.fst) (channels.map Prod.snd)) width
  | activation {function : String} {op : Op} {width : ℕ} (op_eq : readActivation function = .ok op) :
      Builds (.activation function) [width] op width
  | softmax {width : ℕ} : Builds .softmax [width] .softmax width
  | add {widths : List ℕ} {width : ℕ} (several : 2 ≤ widths.length) (equal : ∀ w ∈ widths, w = width) :
      Builds .add widths .add width
  | concatenate {widths : List ℕ} (several : 2 ≤ widths.length) :
      Builds .concatenate widths .concatenate (word64 widths.sum)

theorem singleInput_eq_ok_iff {widths : List ℕ} {width : ℕ} : singleInput widths = .ok width ↔ widths = [width] := by
  unfold singleInput
  split <;> simp_all

theorem readQuantizer_eq_ok_iff {text : String} {q : Quantizer} :
    readQuantizer text = .ok q ↔ Quantizer.read text = .ok q := mapError_eq_ok_iff

theorem readOptional_isOk_iff {text : Option String} :
    (∃ q, readOptional text = .ok q) ↔ ∀ t ∈ text, IsQuantizerText t := by
  cases text with
  | none => exact iff_of_true ⟨none, rfl⟩ (by simp)
  | some text =>
    simp only [readOptional, map_eq_ok_iff, readQuantizer_eq_ok_iff, Option.mem_some_iff, forall_eq', IsQuantizerText]
    exact ⟨fun ⟨_, q, hq, _⟩ ↦ ⟨q, hq⟩, fun ⟨q, hq⟩ ↦ ⟨some q, q, hq, rfl⟩⟩

theorem readActivation_isOk_iff {text : String} : (∃ op, readActivation text = .ok op) ↔ IsActivationText text := by
  unfold readActivation IsActivationText
  split
  · simp
  · simp
  · simp
  · rename_i hl hr hs
    rw [or_iff_right hl, or_iff_right hr, or_iff_right hs]
    simp only [bind_eq_ok_iff, readQuantizer_eq_ok_iff, mapError_eq_ok_iff, Quantizer.checkActivation]
    constructor
    · rintro ⟨op, q, hq, u, hu, -⟩
      refine ⟨q, hq, ?_⟩
      by_contra h
      rw [if_neg h] at hu
      cases hu
    · rintro ⟨q, hq, hu⟩
      exact ⟨_, q, hq, (), by rw [if_pos hu], rfl⟩

theorem foldChannel_isOk_iff {g b m v epsilon : Float} :
    (∃ channel, foldChannel g b m v epsilon = .ok channel) ↔ ¬ v + epsilon ≤ 0 := by
  unfold foldChannel
  by_cases h : v + epsilon ≤ 0 <;> simp [h]

theorem foldChannels_isOk_iff {epsilon : Float} {gamma beta mean variance : List Float}
    (hg : gamma.length = variance.length) (hb : beta.length = variance.length) (hm : mean.length = variance.length) :
    (∃ channels, foldChannels epsilon gamma beta mean variance = .ok channels) ↔
      ∀ v ∈ variance, ¬ v + epsilon ≤ 0 := by
  induction variance generalizing gamma beta mean with
  | nil =>
    rw [List.length_eq_zero_iff.mp hg]
    simp [foldChannels]
  | cons v variance ih =>
    obtain ⟨g, gamma, rfl⟩ := List.exists_cons_of_length_eq_add_one hg
    obtain ⟨b, beta, rfl⟩ := List.exists_cons_of_length_eq_add_one hb
    obtain ⟨m, mean, rfl⟩ := List.exists_cons_of_length_eq_add_one hm
    have ih := ih (Nat.succ.inj hg) (Nat.succ.inj hb) (Nat.succ.inj hm)
    rw [List.forall_mem_cons, ← ih, ← foldChannel_isOk_iff (g := g) (b := b) (m := m)]
    simp only [foldChannels, bind_eq_ok_iff]
    constructor
    · rintro ⟨-, channel, hc, channels, hcs, -⟩
      exact ⟨⟨channel, hc⟩, channels, hcs⟩
    · rintro ⟨⟨channel, hc⟩, channels, hcs⟩
      exact ⟨_, channel, hc, channels, hcs, rfl⟩

theorem foldChannels_length {epsilon : Float} {gamma beta mean variance : List Float} {channels : List (Float × Float)}
    (hg : gamma.length = variance.length) (hb : beta.length = variance.length) (hm : mean.length = variance.length)
    (h : foldChannels epsilon gamma beta mean variance = .ok channels) : channels.length = variance.length := by
  induction variance generalizing gamma beta mean channels with
  | nil =>
    rw [List.length_eq_zero_iff.mp hg] at h
    simp only [foldChannels] at h
    cases h
    rfl
  | cons v variance ih =>
    obtain ⟨g, gamma, rfl⟩ := List.exists_cons_of_length_eq_add_one hg
    obtain ⟨b, beta, rfl⟩ := List.exists_cons_of_length_eq_add_one hb
    obtain ⟨m, mean, rfl⟩ := List.exists_cons_of_length_eq_add_one hm
    simp only [foldChannels, bind_eq_ok_iff, pure_eq_ok_iff] at h
    obtain ⟨channel, -, channels, hcs, rfl⟩ := h
    rw [List.length_cons, List.length_cons, ih (Nat.succ.inj hg) (Nat.succ.inj hb) (Nat.succ.inj hm) hcs]

theorem checkCount_eq_ok_iff {parameter : String} {values : List Float} {features : ℕ} {u : Unit} :
    checkCount parameter values features = .ok u ↔ values.length = features := by
  unfold checkCount
  split <;> simp_all

theorem build_input_eq_ok_iff {features : ℕ} {widths : List ℕ} {op : Op} {width : ℕ} :
    (input features).build widths = .ok (op, width) ↔ widths = [] ∧ 0 < features ∧ op = .input ∧ features = width := by
  cases widths with
  | cons w widths => simp [build]
  | nil =>
    by_cases h : features = 0
    · simp [build, h]
    · simp [build, h, Nat.pos_of_ne_zero h, eq_comm]

/-- What a dense layer asks of its parameters, and what it then becomes. -/
theorem build_dense_eq_ok_iff {units : ℕ} {weights : List Float} {bias : Option (List Float)}
    {kernel biases : Option String} {widths : List ℕ} {op : Op} {width : ℕ} :
    (dense units weights bias kernel biases).build widths = .ok (op, width) ↔
      ∃ inFeatures q q', widths = [inFeatures] ∧ 0 < units ∧ weights.length = word64 (units * inFeatures) ∧
        (bias.getD (List.replicate units 0)).length = units ∧ readOptional kernel = .ok q ∧
        readOptional biases = .ok q' ∧ op = .dense inFeatures weights (bias.getD (List.replicate units 0)) q q' ∧
        units = width := by
  constructor
  · intro h
    simp only [build, bind_eq_ok_iff, singleInput_eq_ok_iff] at h
    obtain ⟨inFeatures, rfl, h⟩ := h
    split at h
    · cases h
    case isFalse hunits =>
    split at h
    · cases h
    case isFalse hweights =>
    split at h
    · cases h
    case isFalse hbias =>
    simp only [bind_eq_ok_iff, pure_eq_ok_iff, Prod.mk.injEq] at h
    obtain ⟨q, hq, q', hq', rfl, rfl⟩ := h
    exact ⟨inFeatures, q, q', rfl, Nat.pos_of_ne_zero hunits, not_ne_iff.mp hweights, not_ne_iff.mp hbias, hq, hq', rfl,
      rfl⟩
  · rintro ⟨inFeatures, q, q', rfl, hunits, hweights, hbias, hq, hq', rfl, rfl⟩
    simp [build, singleInput, hq, hq', hbias, hweights, hunits.ne', bind, Except.bind, pure, Except.pure]

theorem build_add_eq_ok_iff {widths : List ℕ} {op : Op} {width : ℕ} : add.build widths = .ok (op, width) ↔
    2 ≤ widths.length ∧ (∀ w ∈ widths, w = width) ∧ op = .add := by
  match widths with
  | [] => simp [build]
  | [w] => simp [build]
  | w :: w' :: rest =>
    by_cases hall : (w :: w' :: rest).all (· = w) = true
    · have heq := List.all_eq_true.mp hall
      simp only [build, hall, if_true, Except.ok.injEq, Prod.mk.injEq]
      constructor
      · rintro ⟨rfl, rfl⟩
        exact ⟨by simp, fun v hv ↦ of_decide_eq_true (heq v hv), rfl⟩
      · rintro ⟨-, hw, rfl⟩
        exact ⟨rfl, hw w List.mem_cons_self⟩
    · simp only [build, hall, if_false, reduceCtorEq, false_iff]
      rintro ⟨-, hw, -⟩
      refine hall (List.all_eq_true.mpr fun v hv ↦ decide_eq_true ?_)
      rw [hw v hv, hw w List.mem_cons_self]

theorem foldl_word64 (widths : List ℕ) : widths.foldl (fun sum width ↦ word64 (sum + width)) 0 = word64 widths.sum := by
  induction widths using List.reverseRecOn with
  | nil => rfl
  | append_singleton widths width ih =>
    rw [List.foldl_append, ih, List.sum_append, List.foldl_cons, List.foldl_nil, List.sum_singleton]
    exact Nat.mod_add_mod _ _ _

/-- Everything that building does, case by case. -/
theorem build_eq_ok_iff {kind : LayerKind} {widths : List ℕ} {op : Op} {width : ℕ} :
    kind.build widths = .ok (op, width) ↔ kind.Builds widths op width := by
  constructor
  · intro h
    cases kind with
    | input features =>
      obtain ⟨rfl, positive, rfl, rfl⟩ := build_input_eq_ok_iff.mp h
      exact .input positive
    | dense units weights bias kernel biases =>
      obtain ⟨inFeatures, q, q', rfl, hunits, hweights, hbias, hq, hq', rfl, rfl⟩ := build_dense_eq_ok_iff.mp h
      exact .dense hunits hweights hbias hq hq'
    | batchNorm gamma beta mean variance epsilon =>
      simp only [build, bind_eq_ok_iff, singleInput_eq_ok_iff, checkCount_eq_ok_iff, pure_eq_ok_iff,
        Prod.mk.injEq] at h
      obtain ⟨features, rfl, -, hg, -, hb, -, hm, -, hv, channels, hc, rfl, rfl⟩ := h
      exact .batchNorm hg hb hm hv hc
    | activation function =>
      simp only [build, bind_eq_ok_iff, singleInput_eq_ok_iff, pure_eq_ok_iff, Prod.mk.injEq] at h
      obtain ⟨features, rfl, op', hop, rfl, rfl⟩ := h
      exact .activation hop
    | softmax =>
      simp only [build, bind_eq_ok_iff, singleInput_eq_ok_iff, pure_eq_ok_iff, Prod.mk.injEq] at h
      obtain ⟨features, rfl, rfl, rfl⟩ := h
      exact .softmax
    | add =>
      obtain ⟨several, equal, rfl⟩ := build_add_eq_ok_iff.mp h
      exact .add several equal
    | concatenate =>
      simp only [build] at h
      split at h
      · cases h
      case isFalse hlength =>
        cases h
        rw [foldl_word64]
        exact .concatenate (not_lt.mp hlength)
  · intro h
    cases h with
    | input positive => exact build_input_eq_ok_iff.mpr ⟨rfl, positive, rfl, rfl⟩
    | dense hunits hweights hbias hq hq' =>
      exact build_dense_eq_ok_iff.mpr ⟨_, _, _, rfl, hunits, hweights, hbias, hq, hq', rfl, rfl⟩
    | batchNorm hg hb hm hv hc =>
      simp [build, singleInput, checkCount, hg, hb, hm, hv, hc, bind, Except.bind, pure, Except.pure]
    | activation hop => simp [build, singleInput, hop, bind, Except.bind, pure, Except.pure]
    | softmax => rfl
    | add several equal => exact build_add_eq_ok_iff.mpr ⟨several, equal, rfl⟩
    | concatenate several => simp only [build, not_lt.mpr several, if_false, foldl_word64]

/-- A layer is built with a width exactly if it fits with that width. -/
theorem build_isOk_iff {kind : LayerKind} {widths : List ℕ} {width : ℕ} :
    (∃ op, kind.build widths = .ok (op, width)) ↔ kind.Fits word64 widths width := by
  have hbias (bias : Option (List Float)) (units : ℕ) :
      (bias.getD (List.replicate units 0)).length = units ↔ ∀ b ∈ bias, b.length = units := by
    cases bias <;> simp
  simp only [build_eq_ok_iff]
  constructor
  · rintro ⟨op, h⟩
    cases h with
    | input positive => exact .input positive
    | dense positive hweights hlength hq hq' =>
      exact .dense positive hweights ((hbias _ _).mp hlength) (readOptional_isOk_iff.mp ⟨_, hq⟩)
        (readOptional_isOk_iff.mp ⟨_, hq'⟩)
    | batchNorm hg hb hm hv hc =>
      exact .batchNorm hg hb hm hv ((foldChannels_isOk_iff (hg.trans hv.symm) (hb.trans hv.symm)
        (hm.trans hv.symm)).mp ⟨_, hc⟩)
    | activation hop => exact .activation (readActivation_isOk_iff.mp ⟨_, hop⟩)
    | softmax => exact .softmax
    | add several equal => exact .add several equal
    | concatenate several => exact .concatenate several
  · intro h
    cases h with
    | input positive => exact ⟨_, .input positive⟩
    | dense positive hweights hlength kernel_text bias_text =>
      obtain ⟨q, hq⟩ := readOptional_isOk_iff.mpr kernel_text
      obtain ⟨q', hq'⟩ := readOptional_isOk_iff.mpr bias_text
      exact ⟨_, .dense positive hweights ((hbias _ _).mpr hlength) hq hq'⟩
    | batchNorm hg hb hm hv positive =>
      obtain ⟨channels, hc⟩ := (foldChannels_isOk_iff (hg.trans hv.symm) (hb.trans hv.symm) (hm.trans hv.symm)).mpr
        positive
      exact ⟨_, .batchNorm hg hb hm hv hc⟩
    | activation text =>
      obtain ⟨op, hop⟩ := readActivation_isOk_iff.mpr text
      exact ⟨op, .activation hop⟩
    | softmax => exact ⟨_, .softmax⟩
    | add several equal => exact ⟨_, .add several equal⟩
    | concatenate several => exact ⟨_, .concatenate several⟩

theorem build_eq_ok {kind : LayerKind} {widths : List ℕ} {op : Op} {width : ℕ}
    (h : kind.build widths = .ok (op, width)) : kind.Fits word64 widths width := build_isOk_iff.mp ⟨op, h⟩

theorem word64_of_lt {n : ℕ} (h : n < 2 ^ 64) : word64 n = n := Nat.mod_eq_of_lt h

def width : LayerKind → List ℕ → ℕ
  | input features, _ => features
  | dense units _ _ _ _, _ => units
  | concatenate, widths => widths.sum
  | _, widths => widths.headD 0

/-- What has to be worked out from the widths of the inputs: how many weights there are, or how many features. -/
def volume : LayerKind → List ℕ → ℕ
  | dense units _ _ _ _, widths => units * widths.headD 0
  | concatenate, widths => widths.sum
  | _, _ => 0

namespace Fits

variable {kind : LayerKind} {widths : List ℕ} {width : ℕ} {count count' : ℕ → ℕ}

theorem congr (hcount : count (kind.volume widths) = count' (kind.volume widths)) (h : kind.Fits count widths width) :
    kind.Fits count' widths width := by
  cases h with
  | input positive => exact .input positive
  | dense positive weights_length bias_length kernel_text bias_text =>
    exact .dense positive (weights_length.trans hcount) bias_length kernel_text bias_text
  | batchNorm gamma_length beta_length mean_length variance_length positive =>
    exact .batchNorm gamma_length beta_length mean_length variance_length positive
  | activation text => exact .activation text
  | softmax => exact .softmax
  | add several equal => exact .add several equal
  | concatenate several =>
    rw [show count widths.sum = count' widths.sum from hcount]
    exact .concatenate several

theorem width_eq (hcount : count (kind.volume widths) = kind.volume widths) (h : kind.Fits count widths width) :
    width = kind.width widths := by
  cases h with
  | input | dense | batchNorm | activation | softmax => rfl
  | add several equal =>
    obtain ⟨w, rest, rfl⟩ := List.exists_cons_of_length_pos (by omega : 0 < widths.length)
    exact (equal w List.mem_cons_self).symm
  | concatenate => exact hcount

theorem pos (hcount : count (kind.volume widths) = kind.volume widths) (h : kind.Fits count widths width)
    (hw : ∀ w ∈ widths, 0 < w) : 0 < width := by
  cases h with
  | input positive => exact positive
  | dense positive => exact positive
  | batchNorm | activation | softmax => exact hw width (List.mem_singleton.mpr rfl)
  | add several equal =>
    obtain ⟨w, hmem⟩ := List.exists_mem_of_length_pos (by omega : 0 < widths.length)
    exact equal w hmem ▸ hw w hmem
  | concatenate several =>
    obtain ⟨w, hmem⟩ := List.exists_mem_of_length_pos (by omega : 0 < widths.length)
    exact ((hw w hmem).trans_le (List.single_le_sum (by simp) w hmem)).trans_eq hcount.symm

/-- Only an input layer reads nothing, and it reads nothing. -/
theorem eq_nil_iff (h : kind.Fits count widths width) : widths = [] ↔ kind.isInput = true := by
  cases h with
  | input => simp [isInput]
  | dense | batchNorm | activation | softmax => simp [isInput]
  | add several | concatenate several =>
    refine iff_of_false ?_ (by simp [isInput])
    rintro rfl
    simp at several

end Fits

end LayerKind

end FixedNet

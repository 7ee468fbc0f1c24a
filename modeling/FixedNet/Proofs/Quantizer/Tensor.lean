import FixedNet.Proofs.Outcome
import FixedNet.Quantizer.Tensor

namespace FixedNet

def Encoding.decode : Encoding → Float → Float
  | .direct, code => code
  | .xnor, code => 2 * code - 1

theorem CodedTensor.values_eq (t : CodedTensor) :
    t.values = t.codes.mapIdx fun i code ↦ t.encoding.decode code * t.scaleOf i := by
  unfold values
  cases t.encoding <;> rfl

namespace Quantizer

section

variable {α : Type} {size count : ℕ} {xs stretch : List α}

theorem length_stretches (size count : ℕ) (xs : List α) : (stretches size count xs).length = count := by
  induction count generalizing xs with
  | zero => rfl
  | succ count ih => rw [stretches, List.length_cons, ih]

theorem mem_of_mem_stretches (h : stretch ∈ stretches size count xs) :
    stretch.length ≤ size ∧ ∀ x ∈ stretch, x ∈ xs := by
  induction count generalizing xs with
  | zero => cases h
  | succ count ih =>
    rcases List.mem_cons.mp h with rfl | h
    · exact ⟨List.length_take_le size xs, fun x hx ↦ List.mem_of_mem_take hx⟩
    · exact ⟨(ih h).1, fun x hx ↦ List.mem_of_mem_drop ((ih h).2 x hx)⟩

theorem flatten_stretches (size count : ℕ) (xs : List α) :
    (stretches size count xs).flatten = xs.take (count * size) := by
  induction count generalizing xs with
  | zero => simp [stretches]
  | succ count ih => rw [stretches, List.flatten_cons, ih, Nat.succ_mul, Nat.add_comm, List.take_add]

theorem length_of_mem_stretches (h : count * size ≤ xs.length) (hmem : stretch ∈ stretches size count xs) :
    stretch.length = size := by
  induction count generalizing xs with
  | zero => cases hmem
  | succ count ih =>
    rw [Nat.succ_mul] at h
    rcases List.mem_cons.mp hmem with rfl | hmem
    · rw [List.length_take]
      omega
    · exact ih (by rw [List.length_drop]; omega) hmem

theorem stretches_one (xs : List α) : stretches 1 xs.length xs = xs.map fun x ↦ [x] := by
  induction xs with
  | nil => rfl
  | cons x xs ih =>
    rw [List.length_cons, stretches, List.map_cons, ← ih]
    rfl

theorem stretches_append (h : xs.length = count * size) (count' : ℕ) (ys : List α) :
    stretches size (count + count') (xs ++ ys) = stretches size count xs ++ stretches size count' ys := by
  induction count generalizing xs with
  | zero =>
    rw [Nat.zero_mul, List.length_eq_zero_iff] at h
    simp [h, stretches]
  | succ count ih =>
    have hle : size ≤ xs.length := by
      rw [h, Nat.succ_mul]
      omega
    have hrest : (xs.drop size).length = count * size := by
      rw [List.length_drop, h, Nat.succ_mul, Nat.add_sub_cancel]
    rw [Nat.succ_add, stretches, stretches, List.take_append_of_le_length hle, List.drop_append_of_le_length hle,
      ih hrest, List.cons_append]

end

variable {q : Quantizer} {values : List Float} {channels : ℕ} {t : CodedTensor}

theorem length_of_projectChannel {channel : List Float} {projected : List Float × Float}
    (h : q.projectChannel channel = .ok projected) : projected.1.length = channel.length := by
  unfold projectChannel at h
  split at h
  · split at h
    · cases h
      simp
    · cases h
  · cases h
    simp
  · cases h
    simp [Ternary.projectAuto]
  · cases h
    simp

def joined (q : Quantizer) (projected : List (List Float × Float)) : CodedTensor :=
  ⟨projected.flatMap Prod.fst, projected.map Prod.snd, q.encoding⟩

theorem projectTensor_eq_ok_iff : q.projectTensor values channels = .ok t ↔
    (channels ≠ 0 ∧ channels ∣ values.length) ∧
      (values = [] ∧ t = ⟨[], List.replicate channels 1, q.encoding⟩ ∨
        values ≠ [] ∧ ∃ projected, (stretches (values.length / channels) channels values).mapM q.projectChannel =
          .ok projected ∧ t = q.joined projected) := by
  have hsplit : channels ≠ 0 ∧ channels ∣ values.length ↔ ¬ (channels = 0 ∨ values.length % channels ≠ 0) := by
    rw [not_or, not_not, Nat.dvd_iff_mod_eq_zero]
  unfold projectTensor
  rw [hsplit]
  split
  case isTrue hbad => simp [hbad]
  case isFalse hgood =>
    rw [and_iff_right hgood]
    split
    case isTrue hempty => simp [List.isEmpty_iff.mp hempty, eq_comm]
    case isFalse hnonempty =>
      have hne : values ≠ [] := fun h ↦ hnonempty (by simp [h])
      simp only [hne, false_and, false_or, ne_eq, not_false_eq_true, true_and, bind_eq_ok_iff, pure_eq_ok_iff]
      exact exists_congr fun projected ↦ and_congr_right fun _ ↦ eq_comm

theorem lengths_of_projectTensor (h : q.projectTensor values channels = .ok t) :
    t.codes.length = values.length ∧ t.scales.length = channels := by
  obtain ⟨⟨-, hdvd⟩, ⟨rfl, rfl⟩ | ⟨-, projected, hprojected, rfl⟩⟩ := projectTensor_eq_ok_iff.mp h
  · simp
  · refine ⟨?_, ?_⟩
    · rw [joined, List.length_flatMap, map_eq_of_mapM hprojected fun _ _ ↦ length_of_projectChannel,
        ← List.length_flatten, flatten_stretches, Nat.mul_div_cancel' hdvd, List.take_length]
    · rw [joined, List.length_map, length_of_mapM hprojected, length_stretches]

theorem encoding_of_projectTensor (h : q.projectTensor values channels = .ok t) : t.encoding = q.encoding := by
  obtain ⟨-, ⟨-, rfl⟩ | ⟨-, _, -, rfl⟩⟩ := projectTensor_eq_ok_iff.mp h <;> rfl

theorem projectTensor_of_length {size : ℕ} (hsize : 1 ≤ size) (hchannels : 1 ≤ channels)
    (hlength : values.length = channels * size) : q.projectTensor values channels = .ok t ↔
      ∃ projected, (stretches size channels values).mapM q.projectChannel = .ok projected ∧ t = q.joined projected := by
  have hne : values ≠ [] := by
    rw [← List.length_pos_iff, hlength]
    exact Nat.mul_pos hchannels hsize
  have hdiv : values.length / channels = size := by rw [hlength, Nat.mul_div_cancel_left _ hchannels]
  rw [projectTensor_eq_ok_iff, hdiv]
  simp [hne, hlength, Nat.ne_of_gt hchannels]

theorem joined_append (q : Quantizer) (ps ps' : List (List Float × Float)) : q.joined (ps ++ ps') =
    ⟨(q.joined ps).codes ++ (q.joined ps').codes, (q.joined ps).scales ++ (q.joined ps').scales, q.encoding⟩ := by
  simp [joined]

theorem projectTensor_append {size c₁ c₂ : ℕ} {xs ys : List Float} (hsize : 1 ≤ size) (h₁ : 1 ≤ c₁) (h₂ : 1 ≤ c₂)
    (hxs : xs.length = c₁ * size) (hys : ys.length = c₂ * size) :
    q.projectTensor (xs ++ ys) (c₁ + c₂) = .ok t ↔
      ∃ t₁ t₂, q.projectTensor xs c₁ = .ok t₁ ∧ q.projectTensor ys c₂ = .ok t₂ ∧
        t = ⟨t₁.codes ++ t₂.codes, t₁.scales ++ t₂.scales, q.encoding⟩ := by
  have hboth : (xs ++ ys).length = (c₁ + c₂) * size := by rw [List.length_append, hxs, hys, Nat.add_mul]
  simp only [projectTensor_of_length hsize h₁ hxs, projectTensor_of_length hsize h₂ hys]
  rw [projectTensor_of_length hsize (by omega) hboth, stretches_append hxs]
  simp only [mapM_append_eq_ok_iff]
  constructor
  · rintro ⟨_, ⟨ps, ps', hps, hps', rfl⟩, rfl⟩
    exact ⟨_, _, ⟨ps, hps, rfl⟩, ⟨ps', hps', rfl⟩, q.joined_append ps ps'⟩
  · rintro ⟨_, _, ⟨ps, hps, rfl⟩, ⟨ps', hps', rfl⟩, rfl⟩
    exact ⟨_, ⟨ps, ps', hps, hps', rfl⟩, (q.joined_append ps ps').symm⟩

theorem element_of_projectTensor (h : q.projectTensor values channels = .ok t) {i : ℕ} (hi : i < values.length) :
    i / max t.channelLength 1 = i / (values.length / channels) ∧
      t.scales[i / (values.length / channels)]? = some (t.scaleOf i) ∧
      ∃ code, t.codes[i]? = some code ∧ t.values[i]? = some (q.encoding.decode code * t.scaleOf i) := by
  obtain ⟨hcodes, hscales⟩ := lengths_of_projectTensor h
  obtain ⟨⟨hchannels, hdvd⟩, -⟩ := projectTensor_eq_ok_iff.mp h
  have hmul := Nat.mul_div_cancel' hdvd
  have hpos : 0 < values.length / channels := Nat.div_pos (Nat.le_of_dvd (by omega) hdvd) (by omega)
  have hlength : max t.channelLength 1 = values.length / channels := by
    rw [CodedTensor.channelLength, CodedTensor.channels, hcodes, hscales, max_eq_left (by omega : 1 ≤ channels)]
    omega
  have hchannel : i / (values.length / channels) < t.scales.length := by
    rw [hscales, Nat.div_lt_iff_lt_mul hpos, hmul]
    exact hi
  refine ⟨by rw [hlength], ?_, t.codes.get ⟨i, by omega⟩, by simp, ?_⟩
  · rw [CodedTensor.scaleOf, hlength, List.getElem?_eq_getElem hchannel]
    rfl
  · rw [CodedTensor.values_eq, encoding_of_projectTensor h]
    simp [hcodes, hi]

/-- Two lists of channels are projected together just if each is, and then codes and scales are those of the one before
those of the other. Whatever is projected has a code and a value for each number and a scale for each channel; the scale
of a number is the one of its channel, and its value is the decoded code times this scale. -/
theorem projectTensor_by_channels (q : Quantizer) {size c₁ c₂ : ℕ} {v₁ v₂ : List Float} (hsize : 1 ≤ size)
    (h₁ : 1 ≤ c₁) (h₂ : 1 ≤ c₂) (hv₁ : v₁.length = c₁ * size) (hv₂ : v₂.length = c₂ * size) :
    ((∃ t, q.projectTensor (v₁ ++ v₂) (c₁ + c₂) = .ok t) ↔
      (∃ t₁, q.projectTensor v₁ c₁ = .ok t₁) ∧ ∃ t₂, q.projectTensor v₂ c₂ = .ok t₂) ∧
    (∀ t t₁ t₂, q.projectTensor (v₁ ++ v₂) (c₁ + c₂) = .ok t → q.projectTensor v₁ c₁ = .ok t₁ →
      q.projectTensor v₂ c₂ = .ok t₂ → t.codes = t₁.codes ++ t₂.codes ∧ t.scales = t₁.scales ++ t₂.scales) ∧
    ∀ values channels t, q.projectTensor values channels = .ok t →
      t.codes.length = values.length ∧ t.scales.length = channels ∧ t.values.length = values.length ∧
        ∀ i < values.length, i / max t.channelLength 1 = i / (values.length / channels) ∧
          t.scales[i / (values.length / channels)]? = some (t.scaleOf i) ∧
          ∃ code, t.codes[i]? = some code ∧ t.values[i]? = some (q.encoding.decode code * t.scaleOf i) := by
  have happend (t : CodedTensor) := projectTensor_append (q := q) (t := t) hsize h₁ h₂ hv₁ hv₂
  refine ⟨?_, ?_, ?_⟩
  · constructor
    · rintro ⟨t, ht⟩
      obtain ⟨t₁, t₂, ht₁, ht₂, -⟩ := (happend t).mp ht
      exact ⟨⟨t₁, ht₁⟩, t₂, ht₂⟩
    · rintro ⟨⟨t₁, ht₁⟩, t₂, ht₂⟩
      exact ⟨_, (happend _).mpr ⟨t₁, t₂, ht₁, ht₂, rfl⟩⟩
  · intro t t₁ t₂ ht ht₁ ht₂
    obtain ⟨u₁, u₂, hu₁, hu₂, rfl⟩ := (happend t).mp ht
    cases ht₁.symm.trans hu₁
    cases ht₂.symm.trans hu₂
    exact ⟨rfl, rfl⟩
  · intro values channels t h
    obtain ⟨hcodes, hscales⟩ := lengths_of_projectTensor h
    refine ⟨hcodes, hscales, ?_, fun i hi ↦ element_of_projectTensor h hi⟩
    rw [CodedTensor.values_eq, List.length_mapIdx, hcodes]

/-- The scales are those of the channels by themselves, although the largest number is in another one. -/
theorem projectTensor_by_channels_auto :
    let q : Quantizer := .ternary { alpha := .auto, threshold := none }
    ∃ t, q.projectTensor ([1, -2] ++ [0.5, 4, 0, 0]) (1 + 2) = .ok t ∧
      t.codes = [1, -1] ++ [0, 1, 0, 0] ∧ t.scales = [1.5] ++ [4, 1] := by
  intro q
  have hfirst : ∃ t₁, q.projectTensor [1, -2] 1 = .ok t₁ ∧ t₁.codes = [1, -1] ∧ t₁.scales = [1.5] :=
    ⟨_, rfl, by decide +kernel, by decide +kernel⟩
  have hrest : ∃ t₂, q.projectTensor [0.5, 4, 0, 0] 2 = .ok t₂ ∧ t₂.codes = [0, 1, 0, 0] ∧ t₂.scales = [4, 1] :=
    ⟨_, rfl, by decide +kernel, by decide +kernel⟩
  obtain ⟨t₁, ht₁, hcodes₁, hscales₁⟩ := hfirst
  obtain ⟨t₂, ht₂, hcodes₂, hscales₂⟩ := hrest
  obtain ⟨hok, hjoined, -⟩ := @projectTensor_by_channels q 2 1 2 [1, -2] [0.5, 4, 0, 0] (by decide) (by decide)
    (by decide) rfl rfl
  obtain ⟨t, ht⟩ := hok.mpr ⟨⟨t₁, ht₁⟩, t₂, ht₂⟩
  obtain ⟨hcodes, hscales⟩ := hjoined t t₁ t₂ ht ht₁ ht₂
  exact ⟨t, ht, by rw [hcodes, hcodes₁, hcodes₂], by rw [hscales, hscales₁, hscales₂]⟩

end Quantizer

end FixedNet

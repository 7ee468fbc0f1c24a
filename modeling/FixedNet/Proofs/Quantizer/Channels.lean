import FixedNet.Proofs.Binary64.Factors
import FixedNet.Proofs.Inference.Layout
import FixedNet.Proofs.Quantizer.Activation

namespace FixedNet

open Binary64 (nearest value IsNearest parts)

theorem Encoding.decode_xnor {code : Float} (h : code = 0 ∨ code = 1) :
    (decode .xnor code).isFinite = true ∧ value (decode .xnor code) = if code = 1 then 1 else -1 := by
  have hone := Binary64.one_exact
  rcases h with rfl | rfl
  · have hminus : decode .xnor 0 = -1 := by decide +kernel
    rw [hminus, Binary64.isFinite_neg, Binary64.value_neg, hone.2, if_neg (by decide +kernel)]
    exact ⟨hone.1, rfl⟩
  · have hplus : decode .xnor 1 = 1 := by decide +kernel
    rw [hplus, if_pos rfl]
    exact hone

theorem Encoding.value_decode_mul {code scale : Float} (h : code = 0 ∨ code = 1)
    (hfinite : (decode .xnor code * scale).isFinite = true) :
    value (decode .xnor code * scale) = (if code = 1 then 1 else -1) * value scale := by
  obtain ⟨hsign, hvalue⟩ := decode_xnor h
  rw [Binary64.value_mul_of_sign hsign (Binary64.isFinite_of_mul hfinite).2 (by rw [hvalue]; split <;> simp), hvalue]

theorem CodedTensor.values_of_pairs (pairs : List (Float × Float)) (encoding : Encoding) :
    values ⟨pairs.map Prod.fst, pairs.map Prod.snd, encoding⟩ = pairs.map fun p ↦ encoding.decode p.1 * p.2 := by
  rw [values_eq]
  refine List.ext_getElem (by simp) fun i h _ ↦ ?_
  have hi : i < pairs.length := by simpa using h
  have hlength : channelLength ⟨pairs.map Prod.fst, pairs.map Prod.snd, encoding⟩ = 1 := by
    unfold channelLength channels
    rw [List.length_map, List.length_map, max_eq_left (by omega), Nat.div_self (by omega)]
  simp [scaleOf, hlength, hi]

namespace Quantizer

variable {q : Quantizer} {xs : List Float} {w code scale : Float}

theorem exists_pairs_of_forall₂ {projected : List (List Float × Float)}
    (h : List.Forall₂ (fun w p ↦ q.projectChannel [w] = .ok p) xs projected) : ∃ pairs : List (Float × Float),
      List.Forall₂ (fun w p ↦ q.projectChannel [w] = .ok ([p.1], p.2)) xs pairs ∧
        projected = pairs.map fun p ↦ ([p.1], p.2) := by
  induction h with
  | nil => exact ⟨[], .nil, rfl⟩
  | @cons w p _ _ hp _ ih =>
    obtain ⟨pairs, hpairs, rfl⟩ := ih
    obtain ⟨codes, scale⟩ := p
    obtain ⟨code, rfl⟩ := List.length_eq_one_iff.mp (length_of_projectChannel hp)
    exact ⟨(code, scale) :: pairs, .cons hp hpairs, rfl⟩

theorem exists_pairs_of_projectTensor {tensor : CodedTensor} (h : q.projectTensor xs xs.length = .ok tensor) :
    ∃ pairs : List (Float × Float), List.Forall₂ (fun w p ↦ q.projectChannel [w] = .ok ([p.1], p.2)) xs pairs ∧
      tensor = ⟨pairs.map Prod.fst, pairs.map Prod.snd, q.encoding⟩ := by
  obtain ⟨⟨hchannels, -⟩, ⟨rfl, -⟩ | ⟨hxs, projected, hprojected, rfl⟩⟩ := projectTensor_eq_ok_iff.mp h
  · cases hchannels rfl
  · rw [Nat.div_self (List.length_pos_iff.mpr hxs), stretches_one, mapM_eq_ok_iff, List.forall₂_map_left_iff]
      at hprojected
    obtain ⟨pairs, hpairs, rfl⟩ := exists_pairs_of_forall₂ hprojected
    have hcodes : (pairs.map fun p ↦ ([p.1], p.2)).flatMap Prod.fst = pairs.map Prod.fst := by
      rw [List.flatMap_map]
      exact List.map_eq_flatMap.symm
    refine ⟨pairs, hpairs, ?_⟩
    rw [joined, hcodes, List.map_map]
    rfl

theorem mean_abs_nonneg {x : Float} (hx : x.isFinite = true) : 0 ≤ value (mean [x.abs]) := by
  have hsum := Binary64.isNearest_add Binary64.isFinite_zero ((Binary64.isFinite_abs x).trans hx)
  rw [Binary64.value_zero, zero_add, Binary64.value_abs] at hsum
  exact Binary64.value_div_nonneg (hsum.nonneg (abs_nonneg _)) ((Binary64.isNearest_ofInt 1).nonneg (by norm_num))

theorem scale_nonneg {codes : List Float} (hq : q.alpha.Usable) (hw : w.isFinite = true)
    (h : q.projectChannel [w] = .ok (codes, scale)) : 0 ≤ value scale := by
  have hone : 0 ≤ value 1 := by
    rw [Binary64.one_exact.2]
    exact zero_le_one
  unfold projectChannel at h
  split at h
  case h_1 halpha =>
    split at h
    · cases h
      exact Binary64.value_nonneg_of_pos (hq _ halpha).2
    · cases h
  case h_2 u _ =>
    cases h
    unfold Uniform.autoScale
    dsimp only
    split
    · exact Binary64.value_div_nonneg (Binary64.value_nonneg_of_pos ‹_›) (Binary64.value_pow2_nonneg _)
    · exact hone
  case h_3 t _ =>
    cases h
    by_cases hkept : t.cut * peak [w] < w.abs
    · simpa [hkept] using mean_abs_nonneg hw
    · simpa [hkept] using hone
  case h_4 =>
    cases h
    unfold Binary.autoScale
    dsimp only [List.isEmpty]
    rw [if_neg Bool.false_ne_true]
    split
    · exact mean_abs_nonneg hw
    · exact hone

theorem code_of_levels {codes : List Float} (hq : q.encoding = .direct) (hu : ∀ u, q ≠ .uniform u)
    (h : q.projectChannel [w] = .ok (codes, scale)) : ∀ c ∈ codes, c = 1 ∨ c = 0 ∨ c = -1 := by
  have hproject (x : Float) : q.project x = 1 ∨ q.project x = 0 ∨ q.project x = -1 := by
    cases q with
    | uniform u => exact absurd rfl (hu u)
    | ternary t =>
      rw [project, Ternary.project]
      split <;> exact selectCut_cases _ _
    | binary b =>
      rw [encoding] at hq
      split at hq
      · cases hq
      case isFalse hxnor =>
        rw [project, Binary.project, selectSign, if_neg hxnor]
        split
        · exact .inl rfl
        · exact .inr (.inr rfl)
  intro c hc
  unfold projectChannel at h
  split at h
  · split at h
    · cases h
      obtain ⟨x, -, rfl⟩ := List.mem_map.mp hc
      split
      · exact absurd rfl (hu _)
      · exact hproject x
    · cases h
  · exact absurd rfl (hu _)
  · cases h
    obtain ⟨x, -, rfl⟩ := List.mem_map.mp hc
    exact selectCut_cases _ x
  · cases h
    obtain ⟨x, -, rfl⟩ := List.mem_map.mp hc
    exact hproject x

theorem projectChannel_of_isUnit {u : Uniform} (halpha : u.alpha = .fixed 1) (w : Float) :
    (uniform u).projectChannel [w] = .ok ([u.project (w / 1)], 1) := by
  have hunit : ((1 : Float).isFinite && decide (0 < (1 : Float))) = true := by decide +kernel
  unfold projectChannel
  simp only [alpha, halpha]
  rw [if_pos hunit]
  rfl

end Quantizer

end FixedNet

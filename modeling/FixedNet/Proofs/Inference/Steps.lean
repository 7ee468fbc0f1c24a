import FixedNet.Proofs.Inference.Exact

namespace FixedNet

open Recorded (Agrees)

namespace Fixed

def decoded (x : Fixed) : Fixed := (x.plus x).plus one.opposite

theorem value_decoded (x : Fixed) : x.decoded.value = 2 * x.value - 1 := by
  rw [decoded, value_plus, value_plus, value_opposite, value_one]
  ring

theorem decoded_frac (x : Fixed) : x.decoded.frac = max x.frac 0 := by
  simp [decoded, plus, opposite, one]

theorem decoded_raw (x : Fixed) :
    x.decoded.raw = 2 * (x.raw * 2 ^ (max x.frac 0 - x.frac).toNat) - 2 ^ (max x.frac 0).toNat := by
  simp only [decoded, plus, rawAt, opposite, one, max_self, sub_self, Int.toNat_zero, pow_zero, mul_one, sub_zero]
  ring

theorem OnGrid.handed_decoded {f : Format} {x : Fixed} (h : x.OnGrid f) (hfits : (recordBipolar x).Fits) :
    x.decoded.Handed := by
  obtain ⟨hlo, hhi⟩ := h.inRange.bounds
  obtain ⟨hf, hf'⟩ := f.frac_bounds
  rw [← h.frac_eq] at hf hf'
  have hsum := (Recorded.fits_add _ _).mp (Recorded.fits_bind.mp hfits).2
  have hraw : FitsWord x.decoded.raw := hsum.2.2
  have hshift : (max x.frac 0).toNat < 127 := by
    have h := (hsum.2.1.resolve_left (by decide)).1
    change (max (max x.frac x.frac) 0 - 0).toNat < 127 at h
    rwa [max_self, sub_zero] at h
  refine ⟨hraw, ?_, by rw [decoded_frac]; omega, by rw [decoded_frac]; omega⟩
  unfold FitsWord at hraw ⊢
  rw [decoded_raw] at hraw ⊢
  rcases le_or_gt 0 x.frac with h0 | h0
  · have hpow : (2 : ℤ) ^ (max x.frac 0).toNat ≤ 2 ^ 126 := pow_le_pow_right₀ (by norm_num) (by omega)
    have hpos : (0 : ℤ) < 2 ^ (max x.frac 0).toNat := by positivity
    have hzero : (max x.frac 0 - x.frac).toNat = 0 := by omega
    rw [hzero, pow_zero, mul_one] at hraw ⊢
    omega
  · have hzero : (max x.frac 0).toNat = 0 := by omega
    rw [hzero, pow_zero] at hraw ⊢
    omega

theorem eq_decoded {x y : Fixed} (h : x.decodeBipolar = .ok y) : y = x.decoded := ((recordBipolar_agrees x).of_ok h).2

end Fixed

theorem value_recordDecoded (decode : Bool) (xs : List Fixed) :
    (recordDecoded decode xs).value = if decode then xs.map Fixed.decoded else xs := by
  cases decode with
  | false => rfl
  | true => exact Recorded.mapM_value recordBipolar xs

theorem length_recordDecoded (decode : Bool) (xs : List Fixed) :
    (recordDecoded decode xs).value.length = xs.length := by
  rw [value_recordDecoded, apply_ite List.length, List.length_map, ite_self]

/-- Decoding doubles a code and takes one away. -/
theorem all_recordDecoded {P : Event → Prop} {decode : Bool} {xs : List Fixed} : (recordDecoded decode xs).All P ↔
    (decode = true → ∀ x ∈ xs, P (.sum x x) ∧ P (.sum (x.plus x) Fixed.one.opposite)) := by
  cases decode with
  | false => simp [recordDecoded]
  | true =>
    rw [recordDecoded, if_pos rfl, Recorded.all_mapM]
    simp only [recordBipolar, Recorded.all_bind, Recorded.all_add, forall_const]
    rfl

theorem map_value_recordDecoded (decode : Bool) (xs : List Fixed) :
    (recordDecoded decode xs).value.map Fixed.value = exactDecoded decode (xs.map Fixed.value) := by
  rw [value_recordDecoded, exactDecoded, apply_ite (List.map Fixed.value), List.map_map, List.map_map]
  congr 1
  exact List.map_congr_left fun x _ ↦ x.value_decoded

theorem allHanded_recordDecoded {f : Format} {decode : Bool} {xs : List Fixed} (h : ∀ x ∈ xs, x.OnGrid f)
    (hfits : (recordDecoded decode xs).Fits) : AllHanded (recordDecoded decode xs).value := by
  cases decode with
  | false => exact ⟨f.frac, fun x hx ↦ ⟨(h x hx).handed, (h x hx).frac_eq⟩⟩
  | true =>
    refine ⟨max f.frac 0, fun y hy ↦ ?_⟩
    rw [value_recordDecoded, if_pos rfl] at hy
    obtain ⟨x, hx, rfl⟩ := List.mem_map.mp hy
    have hx' : (recordBipolar x).Fits := Recorded.all_mapM.mp hfits x hx
    exact ⟨(h x hx).handed_decoded hx', by rw [x.decoded_frac, (h x hx).frac_eq]⟩

namespace Step

variable {n : ℕ} {formats : Fin n → Format} {values : Vector (List Fixed) n} (s : Step n)

def recordInputs (values : Vector (List Fixed) n) : Recorded (List (List Fixed)) :=
  s.inputs.mapM fun i ↦ recordDecoded i.2 (values.get i.1)

theorem record_eq (row : List Float) : s.record row values = s.recordInputs values >>= s.kernel.record row := rfl

theorem allHanded_recordInputs (h : ∀ i, ∀ x ∈ values.get i, x.OnGrid (formats i))
    (hfits : (s.recordInputs values).Fits) : ∀ xs ∈ (s.recordInputs values).value, AllHanded xs := by
  intro xs hxs
  rw [recordInputs, Recorded.mapM_value] at hxs
  obtain ⟨i, hi, rfl⟩ := List.mem_map.mp hxs
  exact allHanded_recordDecoded (h i.1) (Recorded.all_mapM.mp hfits i hi)

/-- The recorded step gives the values of the step on rationals. -/
theorem value_record (row : List Float) (h : ∀ i, ∀ x ∈ values.get i, x.OnGrid (formats i))
    (hfits : (s.record row values).Fits) :
    (s.record row values).value.map Fixed.value = s.exact row (values.map (List.map Fixed.value)) := by
  obtain ⟨hinputs, hkernel⟩ := Recorded.fits_bind.mp hfits
  rw [record_eq, Recorded.bind_value, s.kernel.value_record row (s.allHanded_recordInputs h hinputs) hkernel, exact,
    recordInputs, Recorded.mapM_value, List.map_map]
  congr 1
  refine List.map_congr_left fun i _ ↦ ?_
  rw [Function.comp_apply, map_value_recordDecoded, Vector.get_map]

end Step

/-- A step on values from the grids of the layers before it. -/
theorem Plan.stepOutcome_agrees {p : Plan} {formats : Fin p.size → Format} {values : p.Values} {s : Step p.size}
    (hs : s.kernel.isInput = false) (row : List Float) (h : OnGrid formats values) :
    Agrees Fault.IsOverflow (p.stepOutcome row values s) (s.record row values) := by
  have hinputs : Agrees NumericError.IsOverflow (s.inputs.mapM fun i ↦ decodeInput i.2 (values.get i.1))
      (s.recordInputs values) := .mapM fun i _ ↦ recordDecoded_agrees i.2 (values.get i.1)
  rw [stepOutcome_eq]
  refine (hinputs.toFault ⟨s.name, .quantizing, none⟩).bind_of_fits fun hfits ↦
    s.kernel.record_agrees hs p.inputFeatures row _ (fun xs hxs x hx ↦ ?_) _
  obtain ⟨frac, hxs⟩ := s.allHanded_recordInputs h hfits xs hxs
  exact (hxs x hx).1.fits_neg

end FixedNet

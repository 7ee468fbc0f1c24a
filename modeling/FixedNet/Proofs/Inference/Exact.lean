import FixedNet.Proofs.Inference.Loops
import FixedNet.Proofs.Numeric.Comparison
import FixedNet.Proofs.Numeric.Sample

namespace FixedNet

def Format.sampleValue (f : Format) (x : Float) : ℚ := f.rawOfNumber x * 2 ^ (-f.frac)

def exactProducts (accum : Format) (acc : ℚ) (terms : List (ℚ × ℚ)) : ℚ :=
  terms.foldl (fun acc p ↦ accum.narrowValue (acc + accum.narrowValue (p.1 * p.2))) acc

def exactTerms (accum : Format) (acc : ℚ) (xs : List ℚ) : ℚ := xs.foldl (fun acc x ↦ accum.narrowValue (acc + x)) acc

def exactEntries (accum : Format) : List ℚ → List ℚ → List ℚ
  | acc :: accs, x :: xs => accum.narrowValue (acc + x) :: exactEntries accum accs xs
  | accs, _ => accs

def Neuron.exact (u : Neuron) (accum : Format) (inputs : List ℚ) : ℚ :=
  let acc := exactProducts accum (accum.narrowValue 0) (inputs.zip (u.weights.map Fixed.value))
  match u.scale with
  | some s => acc * s.value
  | none => acc

/-- A cut compares numbers, the others values. -/
def Shape.exact (s : Shape) (q : ℚ) : ℚ :=
  match s with
  | linear => q
  | relu => if q < 0 then 0 else q
  | sign bipolar => if 0 ≤ q then 1 else if bipolar then -1 else 0
  | cut threshold => ((Shape.cut threshold).apply (.ofValue q)).value

def ExpTable.exactLookup (exp : ExpTable) (q : ℚ) : ℚ := (exp.lookup (.ofValue q)).value

def InvTable.exactLookup (inv : InvTable) (q : ℚ) : ℚ := (inv.lookup (.ofValue q)).value

def ExpTable.exact (exp : ExpTable) : List ℚ → List ℚ
  | [] => []
  | q :: qs => (q :: qs).map fun x ↦ exp.exactLookup (x - qs.foldl max q)

def Kernel.exact (k : Kernel) (row : List Float) (inputs : List (List ℚ)) : List ℚ :=
  let first := inputs.head?.getD []
  match k with
  | input result => row.map result.sampleValue
  | dense units accum result => units.map fun u ↦ result.narrowValue (u.exact accum first + u.bias.value)
  | batchNorm channels accum result =>
    (first.zip channels).map fun p ↦ result.narrowValue (accum.narrowValue (p.1 * p.2.1.value) + p.2.2.value)
  | activation shape result => first.map fun q ↦ result.narrowValue (shape.exact q)
  | softmax exp inv accum result =>
    let exps := exp.exact first
    let factor := inv.exactLookup (exactTerms accum (accum.narrowValue 0) exps)
    exps.map fun e ↦ result.narrowValue (e * factor)
  | add accum result =>
    (inputs.foldl (exactEntries accum) (first.map fun _ ↦ accum.narrowValue 0)).map result.narrowValue
  | concatenate result => inputs.flatten.map result.narrowValue

def exactDecoded (decode : Bool) (qs : List ℚ) : List ℚ := if decode then qs.map fun q ↦ 2 * q - 1 else qs

def Step.exact {n : ℕ} (s : Step n) (row : List Float) (values : Vector (List ℚ) n) : List ℚ :=
  s.kernel.exact row (s.inputs.map fun i ↦ exactDecoded i.2 (values.get i.1))

def Plan.exact (p : Plan) (row : List Float) : Vector (List ℚ) p.size :=
  p.steps.foldl (fun values s ↦ s.store values (s.exact row values)) (Vector.replicate p.size [])

/-- Within the word, also after a change of sign, on a grid that a layer can hand on. -/
structure Fixed.Handed (x : Fixed) : Prop where
  fits : FitsWord x.raw
  fits_neg : FitsWord (-x.raw)
  le_frac : -128 ≤ x.frac
  frac_le : x.frac ≤ 128

theorem Fixed.OnGrid.handed {f : Format} {x : Fixed} (h : x.OnGrid f) : x.Handed := by
  obtain ⟨hlo, hhi⟩ := h.inRange.bounds
  have hfrac := f.frac_bounds
  rw [← h.frac_eq] at hfrac
  refine ⟨⟨by omega, by omega⟩, ⟨by omega, by omega⟩, by omega, by omega⟩

theorem Fixed.Handed.toFloat_ofValue {x : Fixed} (h : x.Handed) : (ofValue x.value).toFloat = x.toFloat := by
  have hle := h.le_frac
  have hge := h.frac_le
  exact Fixed.toFloat_ofValue (h.fits.abs_le_word.trans (by norm_num)) (by omega) (by omega)

theorem value_recordProduct (slot : Slot) (f : Format) (x y : Fixed) :
    (recordProduct slot f x y).value.value = f.narrowValue (x.value * y.value) := by
  rw [← Fixed.value_times, ← Fixed.value_narrow]
  rfl

theorem value_recordSum (slot : Slot) (f : Format) (x y : Fixed) :
    (recordSum slot f x y).value.value = f.narrowValue (x.value + y.value) := by
  rw [← Fixed.value_plus, ← Fixed.value_narrow]
  rfl

theorem value_recordProducts (accum : Format) (acc : Fixed) (terms : List (Fixed × Fixed)) :
    (recordProducts accum acc terms).value.value =
      exactProducts accum acc.value (terms.map fun p ↦ (p.1.value, p.2.value)) := by
  induction terms generalizing acc with
  | nil => rfl
  | cons p terms ih =>
    rw [recordProducts, Recorded.bind_value, Recorded.bind_value, ih, value_recordSum, value_recordProduct]
    rfl

theorem value_recordTerms (accum : Format) (acc : Fixed) (xs : List Fixed) :
    (recordTerms accum acc xs).value.value = exactTerms accum acc.value (xs.map Fixed.value) := by
  induction xs generalizing acc with
  | nil => rfl
  | cons x xs ih =>
    rw [recordTerms, Recorded.bind_value, ih, value_recordSum]
    rfl

theorem value_recordEntries (accum : Format) (accs xs : List Fixed) :
    (recordEntries accum accs xs).value.map Fixed.value =
      exactEntries accum (accs.map Fixed.value) (xs.map Fixed.value) := by
  induction accs generalizing xs with
  | nil => cases xs <;> rfl
  | cons acc accs ih =>
    cases xs with
    | nil => rfl
    | cons x xs =>
      simp only [recordEntries, Recorded.bind_value, Recorded.pure_value, List.map_cons, exactEntries,
        value_recordSum, ih]

theorem value_foldlM_recordEntries (accum : Format) (accs : List Fixed) (xss : List (List Fixed)) :
    (xss.foldlM (recordEntries accum) accs).value.map Fixed.value =
      (xss.map (List.map Fixed.value)).foldl (exactEntries accum) (accs.map Fixed.value) := by
  induction xss generalizing accs with
  | nil => rfl
  | cons xs xss ih =>
    rw [List.foldlM_cons, Recorded.bind_value, ih, value_recordEntries]
    rfl

theorem value_narrow_zero (f : Format) : (Fixed.zero.narrow f).value = f.narrowValue 0 := by
  rw [Fixed.value_narrow, Fixed.value_zero]

theorem Neuron.value_record (u : Neuron) (accum : Format) (inputs : List Fixed) :
    (u.record accum inputs).value.value = u.exact accum (inputs.map Fixed.value) := by
  have hzip : (inputs.zip u.weights).map (fun p ↦ (p.1.value, p.2.value)) =
      (inputs.map Fixed.value).zip (u.weights.map Fixed.value) := by
    rw [List.zip_map]
    rfl
  have hacc := value_recordProducts accum (Fixed.zero.narrow accum) (inputs.zip u.weights)
  rw [hzip, value_narrow_zero] at hacc
  unfold record exact
  cases u.scale with
  | none => exact hacc
  | some s => exact (Fixed.value_times _ s).trans (congrArg (· * s.value) hacc)

theorem Shape.value_sign (bipolar : Bool) (x : Fixed) :
    ((sign bipolar).apply x).value = if 0 ≤ x.value then 1 else if bipolar then -1 else 0 := by
  rw [apply, Fixed.isNegative]
  simp only [← not_lt, Fixed.value_neg_iff, apply_ite Fixed.value, Fixed.value_one, Fixed.value_minusOne,
    Fixed.value_zero, Bool.not_eq_true', decide_eq_false_iff_not]

theorem Shape.value_apply (s : Shape) {x : Fixed} (h : x.Handed) : (s.apply x).value = s.exact x.value := by
  cases s with
  | linear => rfl
  | relu =>
    rw [apply, exact, Fixed.isNegative, apply_ite Fixed.value, Fixed.value_zero]
    simp only [Fixed.value_neg_iff, decide_eq_true_eq]
  | sign bipolar => exact value_sign bipolar x
  | cut threshold =>
    rw [exact, apply, apply, h.toFloat_ofValue]

theorem ExpTable.value_lookup (exp : ExpTable) {x : Fixed} (h : (Fixed.ofValue x.value).toFloat = x.toFloat) :
    (exp.lookup x).value = exp.exactLookup x.value := by
  rw [exactLookup, lookup, lookup, h]

theorem InvTable.value_lookup (inv : InvTable) {x : Fixed} (h : (Fixed.ofValue x.value).toFloat = x.toFloat) :
    (inv.lookup x).value = inv.exactLookup x.value := by
  rw [exactLookup, lookup, lookup, h]

def AllHanded (xs : List Fixed) : Prop := ∃ frac, ∀ x ∈ xs, x.Handed ∧ x.frac = frac

theorem Fixed.value_larger {x y : Fixed} (hx : x.Handed) (hy : y.Handed) (h : x.frac = y.frac) :
    (x.larger y).value = max x.value y.value := by
  have hle := hy.le_frac
  have hge := hy.frac_le
  rw [larger, compareValue_eq h.symm (by omega) (by omega) hy.fits hx.fits hx.fits_neg, max_def]
  simp only [compare_gt_iff_gt, apply_ite value]
  split_ifs <;> linarith

theorem Fixed.value_foldl_larger {x : Fixed} {xs : List Fixed} (h : AllHanded (x :: xs)) :
    (xs.foldl larger x).value = (xs.map value).foldl max x.value := by
  obtain ⟨frac, h⟩ := h
  induction xs generalizing x with
  | nil => rfl
  | cons y xs ih =>
    obtain ⟨hx, hxf⟩ := h x List.mem_cons_self
    obtain ⟨hy, hyf⟩ := h y (by simp)
    rw [List.foldl_cons, List.map_cons, List.foldl_cons, ← value_larger hx hy (hxf.trans hyf.symm)]
    refine ih fun z hz ↦ ?_
    rcases List.mem_cons.mp hz with rfl | hz
    · unfold larger
      split
      · exact ⟨hy, hyf⟩
      · exact ⟨hx, hxf⟩
    · exact h z (by simp [hz])

theorem Fixed.Handed.sum {x y : Fixed} (hx : x.Handed) (hy : y.Handed) (h : x.SumFits y) :
    (ofValue (x.plus y).value).toFloat = (x.plus y).toFloat := by
  have hx₁ := hx.le_frac
  have hx₂ := hx.frac_le
  have hy₁ := hy.le_frac
  have hy₂ := hy.frac_le
  have hfrac : (x.plus y).frac = max x.frac y.frac := rfl
  exact Fixed.toFloat_ofValue (h.2.2.abs_le_word.trans (by norm_num)) (by omega) (by omega)

theorem Fixed.Handed.opposite {x : Fixed} (h : x.Handed) : x.opposite.Handed :=
  ⟨h.fits_neg, by rw [Fixed.opposite, neg_neg]; exact h.fits, h.le_frac, h.frac_le⟩

theorem ExpTable.value_record (exp : ExpTable) {xs : List Fixed} (h : AllHanded xs) (hfits : (exp.record xs).Fits) :
    (exp.record xs).value.map Fixed.value = exp.exact (xs.map Fixed.value) := by
  cases xs with
  | nil => rfl
  | cons x xs =>
    have hlargest := Fixed.value_foldl_larger h
    obtain ⟨frac, h⟩ := h
    have hmem := Fixed.foldl_larger_mem x xs
    have hexact : exp.exact ((x :: xs).map Fixed.value) =
        ((x :: xs).map Fixed.value).map fun q ↦ exp.exactLookup (q - (xs.foldl Fixed.larger x).value) := by
      rw [hlargest]
      rfl
    rw [hexact]
    unfold record at hfits ⊢
    dsimp only at hfits ⊢
    generalize xs.foldl Fixed.larger x = largest at hfits hmem ⊢
    rw [Recorded.mapM_value, List.map_map, List.map_map]
    refine List.map_congr_left fun y hy ↦ ?_
    have hsum := (Recorded.fits_bind.mp (Recorded.all_mapM.mp hfits y hy)).1
    rw [Recorded.fits_add] at hsum
    have hfloat := (h y hy).1.sum (h largest hmem).1.opposite hsum
    change (exp.lookup (y.plus largest.opposite)).value = _
    rw [exp.value_lookup hfloat, Fixed.value_plus, Fixed.value_opposite, ← sub_eq_add_neg]
    rfl

theorem Fixed.value_quantized (f : Format) (x : Float) : (quantized f x).value = f.sampleValue x := by
  cases hx : x.isFinite with
  | true =>
    rw [quantized, ofFloat_ok f hx]
    rfl
  | false =>
    have hzero : Binary64.value x = 0 := Binary64.value_of_not_isFinite hx
    have hraw : f.rawOfNumber x = 0 := by
      have h := f.rounding.round_intCast 0
      rw [Int.cast_zero] at h
      rw [Format.rawOfNumber, hzero, zero_mul, Binary64.nearest_zero, h, f.reduce_of_inRange f.inRange_zero]
    rw [quantized, ofFloat_error hx, Format.sampleValue, hraw, Int.cast_zero, zero_mul]
    exact value_zero

theorem map_head?_getD (xss : List (List Fixed)) :
    (xss.map (List.map Fixed.value)).head?.getD [] = (xss.head?.getD []).map Fixed.value := by
  cases xss <;> rfl

/-- The layer on rationals gives the values of the layer that was recorded. -/
theorem Kernel.value_record (k : Kernel) (row : List Float) {inputs : List (List Fixed)}
    (h : ∀ xs ∈ inputs, AllHanded xs) (hfits : (k.record row inputs).Fits) :
    (k.record row inputs).value.map Fixed.value = k.exact row (inputs.map (List.map Fixed.value)) := by
  have hfirst : AllHanded (inputs.head?.getD []) := by
    cases inputs with
    | nil => exact ⟨0, by simp⟩
    | cons xs xss => exact h xs List.mem_cons_self
  cases k with
  | input result =>
    simp only [record, exact, Recorded.pure_value, List.map_map]
    exact List.map_congr_left fun x _ ↦ Fixed.value_quantized result x
  | dense units accum result =>
    simp only [record, exact, Recorded.bind_value, Recorded.mapM_value, map_head?_getD, zip_map_self, List.map_map]
    refine List.map_congr_left fun u _ ↦ ?_
    simp only [Function.comp_apply, value_recordSum, Neuron.value_record]
  | batchNorm channels accum result =>
    simp only [record, exact, Recorded.bind_value, Recorded.mapM_value, map_head?_getD, zip_map_zip, List.map_map]
    rw [List.zip_map_left, List.map_map]
    refine List.map_congr_left fun p _ ↦ ?_
    simp only [Function.comp_apply, value_recordSum, value_recordProduct]
    rfl
  | activation shape result =>
    obtain ⟨frac, hfirst⟩ := hfirst
    simp only [record, exact, Recorded.mapM_value, map_head?_getD, List.map_map]
    refine List.map_congr_left fun x hx ↦ ?_
    rw [Function.comp_apply, Function.comp_apply, Function.comp_apply, ← shape.value_apply (hfirst x hx).1]
    exact Fixed.value_narrow result (shape.apply x)
  | softmax exp inv accum result =>
    have hexp := exp.value_record hfirst (Recorded.fits_bind.mp hfits).1
    simp only [record, exact, Recorded.bind_value, Recorded.mapM_value, map_head?_getD, List.map_map, ← hexp]
    generalize (exp.record (inputs.head?.getD [])).value = exps
    have hhanded := (onGrid_recordTerms (Fixed.onGrid_narrow accum .zero) exps).handed
    have hsum := value_recordTerms accum (Fixed.zero.narrow accum) exps
    rw [value_narrow_zero] at hsum
    refine List.map_congr_left fun e _ ↦ ?_
    rw [Function.comp_apply, Function.comp_apply, value_recordProduct, ← hsum,
      ← inv.value_lookup hhanded.toFloat_ofValue]
    rfl
  | add accum result =>
    simp only [record, exact, Recorded.bind_value, Recorded.mapM_value, map_head?_getD, List.map_map]
    have hsums := value_foldlM_recordEntries accum
      ((inputs.head?.getD []).map fun _ ↦ Fixed.zero.narrow accum) inputs
    simp only [List.map_map, Function.comp_def, value_narrow_zero] at hsums
    simp only [Function.comp_def, ← hsums, List.map_map]
    exact List.map_congr_left fun x _ ↦ Fixed.value_narrow result x
  | concatenate result =>
    simp only [record, exact, Recorded.mapM_value, ← List.map_flatten, List.map_map]
    exact List.map_congr_left fun x _ ↦ Fixed.value_narrow result x

end FixedNet

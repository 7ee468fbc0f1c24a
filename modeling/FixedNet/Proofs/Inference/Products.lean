import FixedNet.Proofs.Inference.Exponents
import FixedNet.Proofs.Inference.Headroom

namespace FixedNet

open Recorded (Agrees)

theorem FitsWord.mul_of_abs_le {m n : ℤ} (hm : |m| ≤ 2 ^ 63) (hn : |n| < 2 ^ 64) : FitsWord (m * n) := by
  have hm' := abs_nonneg m
  have hn' := abs_nonneg n
  refine .of_abs_lt ?_
  rw [abs_mul]
  nlinarith

namespace Format

variable {f f' : Format} {m n : ℤ}

def IsWidest (f : Format) : Prop := f.total = 64 ∧ f.signed = false

instance (f : Format) : Decidable f.IsWidest := inferInstanceAs (Decidable (_ ∧ _))

theorem rawMax_lt_of_not_isWidest (hf : ¬ f.IsWidest) : f.rawMax < 2 ^ 63 := by
  have htotal := f.total_bounds
  unfold rawMax
  split
  · have : (2 : ℤ) ^ (f.total - 1) ≤ 2 ^ 63 := pow_le_pow_right₀ (by norm_num) (by omega)
    omega
  case isFalse hs =>
    have hne : f.total ≠ 64 := fun h ↦ hf ⟨h, Bool.eq_false_iff.mpr hs⟩
    have : (2 : ℤ) ^ f.total ≤ 2 ^ 63 := pow_le_pow_right₀ (by norm_num) (by omega)
    omega

theorem InRange.abs_lt_word (h : f.InRange n) : |n| < 2 ^ 64 := by
  obtain ⟨hlo, hhi⟩ := h.bounds
  rw [abs_lt]
  omega

theorem InRange.abs_le_of_not_isWidest (h : f.InRange n) (hf : ¬ f.IsWidest) : |n| ≤ 2 ^ 63 := by
  have hmin := f.neg_word_le_rawMin
  have hmax := rawMax_lt_of_not_isWidest hf
  obtain ⟨hlo, hhi⟩ := h
  rw [abs_le]
  omega

theorem InRange.nonneg_of_isWidest (h : f.InRange n) (hf : f.IsWidest) : 0 ≤ n := by
  have hmin : f.rawMin = 0 := by rw [rawMin, hf.2, if_neg Bool.false_ne_true]
  exact hmin ▸ h.1

theorem fitsWord_mul_iff (hm : f.InRange m) (hn : f'.InRange n) :
    FitsWord (m * n) ↔ ¬ (f.IsWidest ∧ f'.IsWidest ∧ 2 ^ 127 ≤ m * n) := by
  by_cases hf : f.IsWidest
  · by_cases hf' : f'.IsWidest
    · have hpos := mul_nonneg (hm.nonneg_of_isWidest hf) (hn.nonneg_of_isWidest hf')
      simp only [hf, hf', true_and, not_le]
      exact ⟨fun h ↦ h.2, fun h ↦ ⟨by omega, h⟩⟩
    · refine iff_of_true ?_ fun h ↦ hf' h.2.1
      rw [mul_comm]
      exact .mul_of_abs_le (hn.abs_le_of_not_isWidest hf') hm.abs_lt_word
  · exact iff_of_true (.mul_of_abs_le (hm.abs_le_of_not_isWidest hf) hn.abs_lt_word) fun h ↦ hf h.1

theorem represents_zero (f : Format) : f.Represents 0 := ⟨0, f.inRange_zero, by simp⟩

end Format

theorem Fixed.mul_of_inRange {f f' : Format} {x y : Fixed} (hx : f.InRange x.raw) (hy : f'.InRange y.raw) :
    x.mul y = if f.IsWidest ∧ f'.IsWidest ∧ 2 ^ 127 ≤ x.raw * y.raw then .error (.overflow .multiplication)
      else .ok (x.times y) := by
  have hiff := Format.fitsWord_mul_iff hx hy
  split
  case isTrue h => exact mul_error fun hfits ↦ hiff.mp hfits h
  case isFalse h => exact mul_ok (hiff.mpr h)

section

variable {G : Format → Prop} {x y : Fixed}

/-- A value of one of the formats, or what a code stands for that is. -/
inductive Fixed.IsOperand (G : Format → Prop) (x : Fixed) : Prop
  | value {f : Format} (format : G f) (onGrid : x.OnGrid f) : IsOperand G x
  | decoded {f : Format} {y : Fixed} (format : G f) (onGrid : y.OnGrid f) (eq : x = y.decoded)
      (code : f.Represents 1 → y.value = 0 ∨ y.value = 1) : IsOperand G x

def Fixed.IsWide (G : Format → Prop) (x : Fixed) : Prop := ∃ f, G f ∧ f.IsWidest ∧ x.OnGrid f

/-- What is left of a code in a format without a one. -/
def Fixed.IsMisread (G : Format → Prop) (x : Fixed) : Prop :=
  ∃ (f : Format) (y : Fixed), G f ∧ ¬ f.Represents 1 ∧ y.OnGrid f ∧ x = y.decoded

theorem Fixed.IsOperand.cases (h : x.IsOperand G) : x.IsWide G ∨ x.IsMisread G ∨ |x.raw| ≤ 2 ^ 63 := by
  cases h with
  | @value f format onGrid =>
    by_cases hf : f.IsWidest
    · exact .inl ⟨f, format, hf, onGrid⟩
    · exact .inr (.inr (onGrid.inRange.abs_le_of_not_isWidest hf))
  | @decoded f y format onGrid eq code =>
    by_cases hone : f.Represents 1
    · refine .inr (.inr ?_)
      subst eq
      have harrives := Format.arrives_decoded hone onGrid.frac_eq (code hone)
      rcases harrives.onGrid_or with h | h
      · exact h.inRange.abs_le_of_not_isWidest (by decide)
      · exact h
    · exact .inr (.inl ⟨f, y, format, hone, onGrid, eq⟩)

/-- A product fits, unless both factors are of 64 unsigned bits or one of them has been misread. -/
def Event.ProductFits (G : Format → Prop) : Event → Prop
  | product x y => FitsWord (x.raw * y.raw) ∨ (x.IsWide G ∧ y.IsWide G ∧ 2 ^ 127 ≤ x.raw * y.raw) ∨
      x.IsMisread G ∨ y.IsMisread G
  | sum .. => True
  | narrowing .. => True

theorem Event.productFits (hx : x.IsOperand G) (hy : y.IsOperand G) : (product x y).ProductFits G := by
  rcases hx.cases with hx | hx | hx
  · rcases hy.cases with hy | hy | hy
    · by_cases hfits : FitsWord (x.raw * y.raw)
      · exact .inl hfits
      · refine .inr (.inl ⟨hx, hy, ?_⟩)
        obtain ⟨f, -, -, hx⟩ := hx
        obtain ⟨f', -, -, hy⟩ := hy
        exact (not_not.mp (mt (Format.fitsWord_mul_iff hx.inRange hy.inRange).mpr hfits)).2.2
    · exact .inr (.inr (.inr hy))
    · obtain ⟨f, -, -, hx⟩ := hx
      refine .inl ?_
      rw [mul_comm]
      exact .mul_of_abs_le hy hx.inRange.abs_lt_word
  · exact .inr (.inr (.inl hx))
  · rcases hy.cases with hy | hy | hy
    · obtain ⟨f, -, -, hy⟩ := hy
      exact .inl (.mul_of_abs_le hx hy.inRange.abs_lt_word)
    · exact .inr (.inr (.inr hy))
    · exact .inl (.mul_of_abs_le hx (by omega))

end

section

variable {G : Format → Prop}

theorem productFits_recordProduct {slot : Slot} {f : Format} {x y : Fixed} (hx : x.IsOperand G) (hy : y.IsOperand G) :
    (recordProduct slot f x y).All (Event.ProductFits G) :=
  (all_recordProduct _ _ _ _).mpr ⟨Event.productFits hx hy, trivial⟩

theorem productFits_recordSum (slot : Slot) (f : Format) (x y : Fixed) :
    (recordSum slot f x y).All (Event.ProductFits G) :=
  (all_recordSum _ _ _ _).mpr ⟨trivial, trivial⟩

theorem isOperand_of_mem_recordDecoded {f : Format} {decode : Bool} {xs : List Fixed} (hf : G f)
    (hgrid : ∀ x ∈ xs, x.OnGrid f)
    (hcodes : decode = true → f.Represents 1 → ∀ x ∈ xs, x.value = 0 ∨ x.value = 1) :
    ∀ y ∈ (recordDecoded decode xs).value, y.IsOperand G := by
  rw [value_recordDecoded]
  cases decode with
  | false => exact fun x hx ↦ .value hf (hgrid x hx)
  | true => exact List.forall_mem_map.mpr fun x hx ↦ .decoded hf (hgrid x hx) rfl fun hone ↦ hcodes rfl hone x hx

theorem Format.IsWeight.isOperand {f : Format} {encoding : Encoding} {w : Fixed} (h : f.IsWeight encoding w)
    (hf : G f) : w.IsOperand G := by
  cases encoding with
  | direct => exact .value hf h
  | xnor =>
    obtain ⟨c, hc, rfl⟩ := h
    refine .decoded hf ⟨rfl, f.reduce_inRange _⟩ rfl ?_
    intro hone
    rcases hc with rfl | rfl
    · refine .inl ?_
      rw [(f.value_rawOfNumber_iff 0).mpr (by rw [Binary64.value_zero]; exact f.represents_zero), Binary64.value_zero]
    · refine .inr ?_
      rw [(f.value_rawOfNumber_iff 1).mpr (by rwa [Binary64.one_exact.2]), Binary64.one_exact.2]

theorem Neuron.OnGrids.productFits_record {u : Neuron} {formats : SlotMap Format} {encoding : Encoding} {inFeatures : ℕ}
    (hu : u.OnGrids formats encoding inFeatures) (hG : ∀ p f, formats.get p = some f → G f) {accum : Format}
    (haccum : G accum) {xs : List Fixed} (h : ∀ x ∈ xs, x.IsOperand G) :
    (u.record accum xs).All (Event.ProductFits G) := by
  obtain ⟨f, hf, hweights⟩ := hu.weights
  have hproducts : (recordProducts accum (Fixed.zero.narrow accum) (xs.zip u.weights)).Ensures (Event.ProductFits G)
      (Fixed.OnGrid accum) := by
    refine (Fixed.onGrid_narrow accum .zero).recordProducts (fun p hp ↦ ?_) fun a x _ _ ↦ productFits_recordSum _ _ a x
    obtain ⟨hx, hw⟩ := List.of_mem_zip hp
    exact productFits_recordProduct (h _ hx) ((hweights _ hw).isOperand (hG _ f hf))
  refine all_record trivial hproducts fun s hs a ha ↦ ?_
  obtain ⟨f', hf', hscale⟩ := hu.scale s hs
  exact Event.productFits (.value haccum ha) (.value (hG _ f' hf') hscale)

theorem Layer.Compiles.productFits_record {n : ℕ} {layer : Layer n} {formats : SlotMap Format} {k : Kernel}
    (hk : layer.Compiles formats k) (hG : ∀ p f, formats.get p = some f → G f) (row : List Float)
    {inputs : List (List Fixed)} (h : ∀ xs ∈ inputs, ∀ x ∈ xs, x.IsOperand G) :
    (k.record row inputs).All (Event.ProductFits G) := by
  have hfirst : ∀ x ∈ inputs.head?.getD [], x.IsOperand G := by
    cases inputs with
    | nil => simp
    | cons xs xss => exact h xs List.mem_cons_self
  cases hk with
  | input => exact Recorded.all_pure _
  | dense _ haccum _ hunits =>
    exact Kernel.all_record_dense row (fun u hu ↦ (hunits u hu).productFits_record hG (hG _ _ haccum) hfirst)
      fun u _ ↦ productFits_recordSum _ _ _ u.bias
  | batchNorm _ hscale _ _ _ hchannels =>
    refine Kernel.all_record_batchNorm row (fun p hp ↦ ?_) fun p _ ↦ productFits_recordSum _ _ _ p.2.2
    obtain ⟨hx, hc⟩ := List.of_mem_zip hp
    exact productFits_recordProduct (hfirst _ hx) (.value (hG _ _ hscale) (hchannels _ hc).1)
  | activation => exact Kernel.all_record_activation row fun _ _ ↦ trivial
  | softmax _ hexp hinv _ _ hexps hinvs =>
    refine Kernel.all_record_softmax row (fun _ _ _ _ ↦ trivial) trivial ?_ fun d s ↦ ?_
    · exact ((Fixed.onGrid_narrow _ .zero).recordTerms fun e _ a _ ↦ productFits_recordSum _ _ a e).all
    · exact productFits_recordProduct (.value (hG _ _ hexp) (hexps d)) (.value (hG _ _ hinv) (hinvs s))
  | add =>
    refine Kernel.all_record_add row trivial ⟨(ensures_foldlM_recordEntries ?_ fun _ _ x _ a _ ↦
      productFits_recordSum _ _ a x).all, fun _ _ ↦ trivial⟩
    exact List.forall_mem_map.mpr fun _ _ ↦ Fixed.onGrid_narrow _ _
  | concatenate => exact Kernel.all_record_concatenate row fun _ _ _ _ ↦ trivial

end

namespace Graph

variable {g : Graph} {d : Description} {t : Typing g} {steps before after : List (Step g.size)} {s : Step g.size}
  {row : List Float} {values : Vector (List Fixed) g.size}

def HasFormat (t : Typing g) (f : Format) : Prop := ∃ i p, (t.get i).formats.get p = some f

theorem isOperand_of_reaches (hg : Graph.ofDescription d = .ok g) (h : g.order.mapM (g.compileStep t) = .ok steps)
    (hsplit : steps = before ++ s :: after)
    (hbefore : (g.plan steps).outcome row before (g.plan steps).noValues = .ok values) :
    ∀ xs ∈ (s.recordInputs values).value, ∀ x ∈ xs, x.IsOperand (HasFormat t) := by
  have hd := describes_of_isOk hg
  have hs : s ∈ steps := by simp [hsplit]
  have his := isStep_of_mem h hs
  intro xs hxs
  rw [Step.recordInputs, Recorded.mapM_value] at hxs
  obtain ⟨input, hinput, rfl⟩ := List.mem_map.mp hxs
  obtain ⟨f, hf, hgrid⟩ := exists_onGrid_of_outcome hg h hsplit hbefore (mem_of_mem_inputs hd h hsplit hinput)
  refine isOperand_of_mem_recordDecoded ⟨input.1, .result, hf⟩ hgrid ?_
  intro hdecode hone
  rw [his.inputs_eq] at hinput
  obtain ⟨j, -, rfl⟩ := List.mem_map.mp hinput
  have hencoding := of_decide_eq_true hdecode
  refine codes_of_outcome hg (forall₂_isStep h) hencoding (Layer.representsCodes_of_encoding hencoding ?_)
    hsplit hbefore
  intro f' hf'
  obtain rfl := Option.some.inj (hf'.symm.trans hf)
  exact ⟨f'.represents_zero, hone⟩

end Graph

/-- Values in range have a product, unless both formats have 64 unsigned bits and the product 128. So do the operands of
every product wherever a run gets to, unless a code has been decoded from a format without a one; where a product does
not fit, the run fails. -/
theorem products_fit_unless_widest {d : Description} {g : Graph} {t : Typing g} {p : Plan}
    (hg : Graph.ofDescription d = .ok g) (hp : g.compile t = .ok p) {row : List Float} {s : Step p.size}
    {values : p.Values} (hreach : p.Reaches row s values) :
    (∀ (f f' : Format) (x y : Fixed), x.OnGrid f → y.OnGrid f' →
      x.mul y = if f.IsWidest ∧ f'.IsWidest ∧ 2 ^ 127 ≤ x.raw * y.raw then .error (.overflow .multiplication)
        else .ok (x.times y)) ∧
      (s.record row values).All (Event.ProductFits (Graph.HasFormat t)) ∧
      (∀ x y, .product x y ∈ (s.record row values).events → ¬ FitsWord (x.raw * y.raw) →
        ∃ fault, p.predictRow row = .error fault ∧ fault.layer = s.name) ∧
      (s.kernel.isInput = false → Agrees Fault.IsOverflow (p.stepOutcome row values s) (s.record row values)) := by
  obtain ⟨steps, rfl, h⟩ := Graph.exists_plan_of_compile hp
  have hsound := Graph.sound_plan hg h
  have hs : s ∈ steps := hreach.mem
  have his := Graph.isStep_of_mem h hs
  refine ⟨?_, ?_, ?_, ?_⟩
  · intro f f' x y hx hy
    exact Fixed.mul_of_inRange hx.inRange hy.inRange
  · rw [Step.record_eq]
    refine Recorded.all_bind.mpr ⟨Recorded.all_mapM.mpr fun i _ ↦ all_recordDecoded.mpr fun _ _ _ ↦
      ⟨trivial, trivial⟩, ?_⟩
    obtain ⟨before, after, hsplit, hbefore⟩ := hreach
    exact his.compiles.productFits_record (fun slot f hf ↦ ⟨s.index, slot, hf⟩) row
      (Graph.isOperand_of_reaches hg h hsplit hbefore)
  · intro x y hmem hnot
    exact hsound.fails_of_not_fits hreach ⟨_, hmem, hnot⟩
  · intro hinput
    exact Plan.stepOutcome_agrees hinput row (hreach.onGrid hsound.result_eq)

/-- The unit of the affine network multiplies values of 16 bits. -/
theorem products_fit_unless_widest_affine : affineAdjustedPlan.Reaches [1.5, 2] affineUnit affineValues ∧
    (affineUnit.record [1.5, 2] affineValues).All (Event.ProductFits (Graph.HasFormat affineAdjusted)) := by
  obtain ⟨-, hfits, -⟩ := products_fit_unless_widest ofDescription_affine compile_affineAdjusted reaches_affineUnit
  exact ⟨reaches_affineUnit, hfits⟩

def unsignedFormat : Format :=
  { total := 64, integer := 64, signed := false, total_bounds := wideFormat.total_bounds,
    integer_bounds := wideFormat.integer_bounds }

def scaling : Description := [⟨"x", [], .input 1⟩, ⟨"unit", ["x"], .dense 1 [13835058055282163712] none none none⟩]

def scalingConfig : Config :=
  let c := Config.setFormat {} (some "x") .result unsignedFormat
  c.setFormat (some "unit") .weight unsignedFormat

set_option maxRecDepth 20000 in
/-- The largest values have no product, and a network that multiplies such values fails. -/
theorem product_overflows : (∃ f x, Fixed.OnGrid f x ∧ x.mul x = .error (.overflow .multiplication)) ∧
    ∃ g t p, Graph.ofDescription scaling = .ok g ∧ g.resolve scalingConfig g.untyped = (t, .ok ()) ∧
      g.compile t = .ok p ∧ p.predictRow [13835058055282163712] =
        .error ⟨"unit", .accumulating, .numeric (.overflow .multiplication)⟩ :=
  ⟨⟨unsignedFormat, ⟨2 ^ 64 - 1, 0⟩, ⟨by decide, by decide⟩, by decide⟩, _, _, _, rfl, rfl, rfl, rfl⟩

end FixedNet

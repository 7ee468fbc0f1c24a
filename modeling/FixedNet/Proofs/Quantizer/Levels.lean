import FixedNet.Proofs.Quantizer.Activation

namespace FixedNet

open Binary64 (value)

variable {f : Format} {x : Float} {b : Fixed}

/-- What becomes of a number that is projected and then snapped to the format of the codes. -/
structure Quantizer.Lands (q : Quantizer) (f : Format) (x : Float) (b : Fixed) : Prop where
  isFinite : (q.project x).isFinite = true
  represents_iff : f.Represents (value (q.project x)) ↔ ¬ q.IsAbove (value x)
  snapped : Fixed.ofFloat f (q.project x) = .ok b
  kept_iff : b.value = value (q.project x) ↔ ¬ q.IsAbove (value x)
  above : q.IsAbove (value x) → value (q.project x) = (f.rawMax + 1 : ℤ) * 2 ^ (-f.frac) ∧ b = ⟨f.rawMin, f.frac⟩

namespace Uniform

variable {q : Uniform}

theorem inRange_iff (hb : q.isBinary = false) (hint : |q.integer| ≤ 2147483647) (hf : q.format = .ok f) (v : ℚ) :
    f.InRange (max q.bottom (min q.top (q.level v))) ↔ ¬ q.IsAbove v := by
  obtain ⟨-, hmin, hmax⟩ := grid_of_format hb hint hf
  have hpos : (1 : ℤ) ≤ 2 ^ q.magnitude := one_le_pow₀ (by norm_num)
  have hbottom := q.bottom_bounds
  have hlow : f.rawMin ≤ q.bottom := by
    rw [hmin]
    unfold bottom
    split
    · split <;> omega
    · exact le_rfl
  unfold Format.InRange IsAbove
  rw [hmax, top]
  simp only [hb, true_and]
  split <;> omega

theorem clamp_of_isAbove (hb : q.isBinary = false) (hint : |q.integer| ≤ 2147483647) (hf : q.format = .ok f) {v : ℚ}
    (h : q.IsAbove v) : max q.bottom (min q.top (q.level v)) = f.rawMax + 1 := by
  obtain ⟨-, -, hmax⟩ := grid_of_format hb hint hf
  obtain ⟨-, hlarge, hlevel⟩ := h
  have hbottom := q.bottom_bounds
  have hpos : (1 : ℤ) ≤ 2 ^ q.magnitude := one_le_pow₀ (by norm_num)
  have hnot : ¬ q.magnitude ≤ 53 := by omega
  rw [hmax, top, if_neg hnot]
  omega

end Uniform

namespace Quantizer

variable {q : Quantizer}

theorem lands_of_represents (hfinite : (q.project x).isFinite = true) (habove : ¬ q.IsAbove (value x))
    (h : f.Represents (value (q.project x))) : q.Lands f x ⟨f.rawOfNumber (q.project x), f.frac⟩ where
  isFinite := hfinite
  represents_iff := iff_of_true h habove
  snapped := Fixed.ofFloat_ok f hfinite
  kept_iff := (f.value_rawOfNumber_iff _).trans (iff_of_true h habove)
  above h := absurd h habove

theorem lands_uniform {u : Uniform} (hb : u.isBinary = false) (hint : |u.integer| ≤ 2147483647) (hf : u.format = .ok f)
    (hx : x.isFinite = true) : (uniform u).Lands f x ⟨f.rawOfNumber ((uniform u).project x), f.frac⟩ := by
  obtain ⟨hfinite, hvalue⟩ := Uniform.project_exact hb hint hf hx
  have hrepresents : f.Represents (value (u.project x)) ↔ ¬ u.IsAbove (value x) := by
    rw [hvalue, f.represents_iff_inRange, Uniform.inRange_iff hb hint hf]
  refine ⟨hfinite, hrepresents, Fixed.ofFloat_ok f hfinite, (f.value_rawOfNumber_iff _).trans hrepresents, ?_⟩
  intro habove
  rw [Uniform.clamp_of_isAbove hb hint hf habove] at hvalue
  have hwrap : f.overflow = .wrap := by
    rw [Uniform.format, hb, if_neg Bool.false_ne_true] at hf
    exact (Format.fields_of_make hf).2.2.2.2
  have hraw : f.rawOfNumber ((uniform u).project x) = f.rawMin :=
    (f.rawOfNumber_of_value hvalue.symm).trans (Format.reduce_rawMax_add_one hwrap)
  exact ⟨hvalue, by rw [hraw]⟩

theorem lands_selectSign (coded : Bool) (hx : x.isFinite = true) (hproject : q.project x = selectSign coded x)
    (habove : ¬ q.IsAbove (value x)) (hf : f = if coded then .bit else .trit) :
    q.Lands f x ⟨f.rawOfNumber (q.project x), f.frac⟩ := by
  obtain ⟨hfinite, hvalue⟩ := selectSign_eq coded hx
  rw [← hproject] at hfinite hvalue
  refine lands_of_represents hfinite habove ?_
  rw [hvalue, hf]
  cases coded with
  | true =>
    refine Format.bit_represents ?_
    split
    · exact .inr rfl
    · exact .inl rfl
  | false =>
    refine Format.trit_represents ?_
    split
    · exact .inr (.inr rfl)
    · exact .inl rfl

theorem lands_selectCut {cut : Float} (hproject : q.project x = selectCut cut x) (habove : ¬ q.IsAbove (value x)) :
    q.Lands .trit x ⟨Format.trit.rawOfNumber (q.project x), Format.trit.frac⟩ := by
  have hone := Binary64.one_exact
  have hvalue : (q.project x).isFinite = true ∧ (value (q.project x) = -1 ∨ value (q.project x) = 0 ∨
      value (q.project x) = 1) := by
    rw [hproject]
    rcases selectCut_cases cut x with h | h | h <;> rw [h]
    · exact ⟨hone.1, .inr (.inr hone.2)⟩
    · exact ⟨Binary64.isFinite_zero, .inr (.inl Binary64.value_zero)⟩
    · rw [Binary64.isFinite_neg, Binary64.value_neg, hone.2]
      exact ⟨hone.1, .inl rfl⟩
  exact lands_of_represents hvalue.1 habove (Format.trit_represents hvalue.2)

theorem lands (hq : q.IsRead) (hf : q.format = .ok f) (hx : x.isFinite = true) :
    q.Lands f x ⟨f.rawOfNumber (q.project x), f.frac⟩ := by
  cases q with
  | uniform u =>
    cases hb : u.isBinary with
    | false => exact lands_uniform hb hq hf hx
    | true =>
      rw [format, Uniform.format, hb, if_pos rfl] at hf
      refine lands_selectSign true hx ?_ ?_ (Except.ok.inj hf).symm
      · rw [project, Uniform.project, hb, if_pos rfl]
      · intro h
        exact Bool.false_ne_true (h.1.symm.trans hb)
  | ternary t =>
    cases hf
    obtain ⟨cut, hproject⟩ : ∃ cut, (ternary t).project x = selectCut cut x := by
      rw [project, Ternary.project]
      cases t.alpha with
      | fixed a => exact ⟨t.cut * a, rfl⟩
      | auto => exact ⟨t.cut, rfl⟩
    exact lands_selectCut hproject not_false
  | binary b => exact lands_selectSign b.xnor hx rfl not_false (Except.ok.inj hf).symm

end Quantizer

/-- Projected parameters are snapped without an error, each to the value of its code, as long as the numbers do
not lie above a range of more than 53 bits of magnitude. What does is projected to one more than the highest
level of the format, and snapped to the lowest. -/
theorem projections_snapped {text : String} {q : Quantizer} (hread : Quantizer.read text = .ok q)
    (hf : q.format = .ok f)
    {xs : List Float} (hxs : ∀ x ∈ xs, x.isFinite = true) {n : ℕ} (layer : Layer n) (parameter : String) :
    ∃ bs, layer.snap parameter (xs.map q.project) f = .ok bs ∧ List.Forall₂ (q.Lands f) xs bs := by
  have hlands : ∀ x ∈ xs, q.Lands f x ⟨f.rawOfNumber (q.project x), f.frac⟩ := by
    intro x hx
    exact Quantizer.lands (Quantizer.isRead_of_read hread) hf (hxs x hx)
  have hfinite : layer.ensureFinite parameter (xs.map q.project) = .ok () := by
    refine if_pos (List.all_eq_true.mpr ?_)
    intro y hy
    obtain ⟨x, hx, rfl⟩ := List.mem_map.mp hy
    exact (hlands x hx).isFinite
  refine ⟨xs.map fun x ↦ ⟨f.rawOfNumber (q.project x), f.frac⟩, bind_eq_ok_iff.mpr ⟨(), hfinite, ?_⟩, ?_⟩
  · rw [mapError_eq_ok_iff, mapM_eq_ok_iff, List.forall₂_map_left_iff, List.forall₂_map_right_iff, List.forall₂_same]
    intro x hx
    exact (hlands x hx).snapped
  · rw [List.forall₂_map_right_iff, List.forall₂_same]
    exact hlands

/-- Numbers outside the range of four bits land on its ends. -/
theorem projections_snapped_nibble : Quantizer.read "quantized_bits(4,0,1)" = .ok (.uniform symmetricNibble) ∧
    (Quantizer.uniform symmetricNibble).format = .ok nibbleFormat ∧ ∃ b b',
      (nibbleGraph.layer nibbleGraph.output).snap "weights" ([5, -5].map (Quantizer.uniform symmetricNibble).project)
        nibbleFormat = .ok [b, b'] ∧
      b.value = value (symmetricNibble.project 5) ∧ b'.value = value (symmetricNibble.project (-5)) := by
  have hfinite : ∀ x ∈ ([5, -5] : List Float), x.isFinite = true := by decide +kernel
  have hnot (v : ℚ) : ¬ symmetricNibble.IsAbove v := by
    intro h
    exact absurd h.2.1 (by decide)
  obtain ⟨bs, hsnap, hlands⟩ := projections_snapped (f := nibbleFormat) read_symmetricNibble rfl hfinite
    (nibbleGraph.layer nibbleGraph.output) "weights"
  obtain ⟨b, tail, h, htail, rfl⟩ := List.forall₂_cons_left_iff.mp hlands
  obtain ⟨b', rest, h', hrest, rfl⟩ := List.forall₂_cons_left_iff.mp htail
  obtain rfl := List.forall₂_nil_left_iff.mp hrest
  exact ⟨read_symmetricNibble, rfl, b, b', hsnap, h.kept_iff.mpr (hnot _), h'.kept_iff.mpr (hnot _)⟩

def unitGrid : Uniform := { bits := 64, integer := 0, bits_bounds := by decide }

def unitFormat : Format :=
  { total := 64, integer := 1, signed := true, total_bounds := unitGrid.bits_bounds,
    integer_bounds := Format.bit.integer_bounds }

set_option maxRecDepth 20000 in
/-- Five is projected to one, which the format does not have, and comes out of it as minus one. -/
theorem projection_wraps : Quantizer.read "quantized_bits(64,0)" = .ok (.uniform unitGrid) ∧
    (Quantizer.uniform unitGrid).format = .ok unitFormat ∧ (5 : Float).isFinite = true ∧
    value ((Quantizer.uniform unitGrid).project 5) = 1 ∧ ¬ unitFormat.Represents 1 ∧
    Fixed.ofFloat unitFormat ((Quantizer.uniform unitGrid).project 5) = .ok ⟨unitFormat.rawMin, unitFormat.frac⟩ ∧
    (Fixed.mk unitFormat.rawMin unitFormat.frac).value = -1 := by
  have hproject : (Quantizer.uniform unitGrid).project 5 = 1 := by decide +kernel
  have hone : ((unitFormat.rawMax + 1 : ℤ) : ℚ) * 2 ^ (-unitFormat.frac) = 1 := by
    norm_num [Format.rawMax, Format.frac, unitFormat]
  refine ⟨rfl, rfl, by decide +kernel, by rw [hproject, Binary64.one_exact.2], ?_, ?_, ?_⟩
  · rw [← hone, unitFormat.represents_iff_inRange]
    exact fun h ↦ absurd h.2 (by omega)
  · rw [hproject]
    decide +kernel
  · norm_num [Fixed.value, Format.rawMin, Format.frac, unitFormat]

end FixedNet

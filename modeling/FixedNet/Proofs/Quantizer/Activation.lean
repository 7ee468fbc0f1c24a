import FixedNet.Proofs.Inference.Exact
import FixedNet.Proofs.Network.WellFormed
import FixedNet.Proofs.Quantizer.Projection

namespace FixedNet

open Binary64 (nearest value)

/-- The format with the modes under which an activation rounds and clamps like a projection. -/
def Format.rounded (f : Format) : Format := (f.withRounding .nearestEven).withOverflow .saturate

/-- At or below the level that a symmetric quantizer leaves out. -/
def Uniform.IsBelow (q : Uniform) (x : ℚ) : Prop :=
  q.isBinary = false ∧ q.keepNegative = true ∧ q.symmetric = true ∧ q.magnitude ≤ 53 ∧ q.level x ≤ -2 ^ q.magnitude

/-- Above a range of more than 53 bits of magnitude. -/
def Uniform.IsAbove (q : Uniform) (x : ℚ) : Prop :=
  q.isBinary = false ∧ 54 ≤ q.magnitude ∧ 2 ^ q.magnitude ≤ q.level x

def Quantizer.IsBelow : Quantizer → ℚ → Prop
  | uniform q, x => q.IsBelow x
  | ternary _, _ => False
  | binary _, _ => False

def Quantizer.IsAbove : Quantizer → ℚ → Prop
  | uniform q, x => q.IsAbove x
  | ternary _, _ => False
  | binary _, _ => False

theorem Format.value_narrow_rounded (f : Format) (x : Fixed) : (x.narrow f.rounded).value =
    (max f.rawMin (min f.rawMax (Rounding.nearestEven.round (x.value * 2 ^ f.frac))) : ℤ) * 2 ^ (-f.frac) := by
  rw [Fixed.value_narrow, narrowValue, rawOf, min_comm f.rawMax]
  rfl

namespace Uniform

variable {q : Uniform} {f : Format}

theorem value_activation (hb : q.isBinary = false) (hint : |q.integer| ≤ 2147483647) (hf : q.format = .ok f)
    (x : Fixed) : (((Quantizer.uniform q).shape.apply x).narrow f.rounded).value =
      (max f.rawMin (min f.rawMax (q.level x.value)) : ℤ) * 2 ^ (-f.frac) := by
  obtain ⟨hfrac, hmin, -⟩ := grid_of_format hb hint hf
  rw [Format.value_narrow_rounded, level, ← hfrac, Quantizer.shape, hb, if_neg Bool.false_ne_true]
  by_cases hk : q.keepNegative = true
  · rw [if_pos hk, Shape.apply]
  · rw [if_neg hk, Shape.apply]
    rw [if_neg hk] at hmin
    by_cases hneg : x.isNegative = true
    · have hmax := f.rawMax_nonneg
      have hle : x.value * 2 ^ f.frac ≤ ((0 : ℤ) : ℚ) := by
        rw [Int.cast_zero]
        exact mul_nonpos_of_nonpos_of_nonneg ((x.value_neg_iff).mpr (of_decide_eq_true hneg)).le (by positivity)
      have hround := Rounding.nearestEven.round_mono hle
      rw [Rounding.round_intCast] at hround
      rw [if_pos hneg, Fixed.value_zero, zero_mul, ← Int.cast_zero, Rounding.round_intCast]
      congr 2
      omega
    · rw [if_neg hneg]

theorem clamps_eq_iff (hb : q.isBinary = false) (hint : |q.integer| ≤ 2147483647) (hf : q.format = .ok f) (x : ℚ) :
    max f.rawMin (min f.rawMax (q.level x)) = max q.bottom (min q.top (q.level x)) ↔ ¬ q.IsBelow x ∧ ¬ q.IsAbove x := by
  obtain ⟨-, hmin, hmax⟩ := grid_of_format hb hint hf
  have hpos : (1 : ℤ) ≤ 2 ^ q.magnitude := one_le_pow₀ (by norm_num)
  have hlarge : 54 ≤ q.magnitude ↔ ¬ q.magnitude ≤ 53 := by omega
  unfold IsBelow IsAbove
  rw [hmin, hmax, bottom, top, hlarge]
  generalize (2 : ℤ) ^ q.magnitude = p at *
  generalize q.level x = n
  by_cases hm : q.magnitude ≤ 53 <;> cases q.keepNegative <;> cases q.symmetric <;>
    simp only [hb, hm, true_and, false_and, and_false, and_true, not_true_eq_false, not_false_eq_true, if_true,
      if_false, Bool.false_eq_true, iff_true] <;> omega

theorem nearest_level {n : ℤ} (hn : |n| ≤ 2 ^ 64) (f : Format) :
    nearest (n * 2 ^ (-f.frac)) = nearest n * 2 ^ (-f.frac) := by
  have hfrac := f.frac_bounds
  exact (Fixed.Moderate.of_le (x := ⟨n, f.frac⟩) (by dsimp only; omega) (by dsimp only; omega)
    (by dsimp only; omega)).nearest_value

theorem nearest_clamp_eq_iff (hb : q.isBinary = false) (hint : |q.integer| ≤ 2147483647) (hf : q.format = .ok f)
    {v : Float} (hv : v.isFinite = true) :
    nearest ((max f.rawMin (min f.rawMax (q.level (value v))) : ℤ) * 2 ^ (-f.frac)) = value (q.project v) ↔
      ¬ q.IsBelow (value v) := by
  obtain ⟨-, hmin, hmax⟩ := grid_of_format hb hint hf
  obtain ⟨-, hproject⟩ := project_exact hb hint hf hv
  have hclamps := clamps_eq_iff hb hint hf (value v)
  have hpow : (2 : ℤ) ^ q.magnitude ≤ 2 ^ 64 := pow_le_pow_right₀ (by norm_num) q.magnitude_le
  have hpos : (1 : ℤ) ≤ 2 ^ q.magnitude := one_le_pow₀ (by norm_num)
  by_cases hbelow : q.IsBelow (value v)
  · have ⟨_, hk, hs, hm, hlevel⟩ := hbelow
    have hact : max f.rawMin (min f.rawMax (q.level (value v))) = -2 ^ q.magnitude := by
      rw [if_pos hk] at hmin
      omega
    have hlost : max q.bottom (min q.top (q.level (value v))) = -2 ^ q.magnitude + 1 := by
      have htop := q.top_bounds
      rw [bottom, if_pos hk, if_pos ⟨hs, hm⟩]
      omega
    have hexact : nearest ((-2 ^ q.magnitude : ℤ) : ℚ) = (-2 ^ q.magnitude : ℤ) := by
      push_cast
      rw [Binary64.nearest_neg, ← zpow_natCast, Binary64.nearest_zpow (by omega)]
    refine iff_of_false (fun heq ↦ ?_) (not_not.mpr hbelow)
    rw [hproject, hact, hlost, nearest_level (by rw [abs_le]; omega), hexact, mul_left_inj' (by positivity),
      Int.cast_inj] at heq
    omega
  · refine iff_of_true ?_ hbelow
    by_cases habove : q.IsAbove (value v)
    · obtain ⟨-, hlarge, hlevel⟩ := habove
      have hrange := f.rawMin_nonpos
      have hact : max f.rawMin (min f.rawMax (q.level (value v))) = 2 ^ q.magnitude - 1 := by omega
      have htop : max q.bottom (min q.top (q.level (value v))) = 2 ^ q.magnitude := by
        have hbottom := q.bottom_bounds
        have hnot : ¬ q.magnitude ≤ 53 := by omega
        rw [top, if_neg hnot]
        omega
      rw [hproject, hact, htop, nearest_level (by rw [abs_le]; omega)]
      push_cast
      rw [Binary64.nearest_two_pow_sub_one hlarge q.magnitude_le]
    · rw [hclamps.mpr ⟨hbelow, habove⟩, ← hproject, Binary64.nearest_value]

end Uniform

theorem selectSign_eq (xnor : Bool) {v : Float} (hv : v.isFinite = true) :
    (selectSign xnor v).isFinite = true ∧
      value (selectSign xnor v) = if 0 ≤ value v then 1 else if xnor then 0 else -1 := by
  have hle : 0 ≤ v ↔ 0 ≤ value v := by rw [Binary64.le_iff Binary64.isFinite_zero hv, Binary64.value_zero]
  have hone := Binary64.one_exact
  unfold selectSign
  simp only [hle]
  split
  · exact hone
  · split
    · exact ⟨Binary64.isFinite_zero, Binary64.value_zero⟩
    · rw [Binary64.isFinite_neg, Binary64.value_neg, hone.2]
      exact ⟨hone.1, rfl⟩

theorem selectCut_eq {cut v : Float} (hcut : cut.isFinite = true) (hv : v.isFinite = true) :
    (selectCut cut v).isFinite = true ∧
      value (selectCut cut v) = if value cut < value v then 1 else if value v < -value cut then -1 else 0 := by
  have hone := Binary64.one_exact
  have habove : cut < v ↔ value cut < value v := Binary64.lt_iff hcut hv
  have hbelow : v < -cut ↔ value v < -value cut := by
    rw [Binary64.lt_iff hv (by rwa [Binary64.isFinite_neg]), Binary64.value_neg]
  unfold selectCut
  simp only [habove, hbelow]
  split
  · exact hone
  · split
    · rw [Binary64.isFinite_neg, Binary64.value_neg, hone.2]
      exact ⟨hone.1, rfl⟩
    · exact ⟨Binary64.isFinite_zero, Binary64.value_zero⟩

theorem selectCut_cases (cut v : Float) : selectCut cut v = 1 ∨ selectCut cut v = 0 ∨ selectCut cut v = -1 := by
  unfold selectCut
  split
  · exact .inl rfl
  · split
    · exact .inr (.inr rfl)
    · exact .inr (.inl rfl)

theorem Binary64.mul_one_exact {x : Float} (hx : x.isFinite = true) :
    (x * 1).isFinite = true ∧ value (x * 1) = value x := by
  have h := isNearest_mul hx Binary64.one_exact.1
  rw [Binary64.one_exact.2, mul_one] at h
  exact h.exact (nearest_value x) (abs_value_lt x)

theorem Alpha.eq_one_of_isUnit {alpha : Alpha} (h : alpha.isUnit = true)
    (hf : ∀ a, alpha = .fixed a → a.isFinite = true) :
    alpha = .fixed 1 := by
  cases alpha with
  | auto => cases h
  | fixed a =>
    have hone := Binary64.one_exact
    have hvalue : value a = value 1 := (Binary64.beq_iff (hf a rfl) hone.1).mp h
    rw [Binary64.eq_of_value_eq (by rw [hvalue, hone.2]; exact one_ne_zero) hvalue]

theorem Format.bit_represents {q : ℚ} (h : q = 0 ∨ q = 1) : Format.bit.rounded.Represents q := by
  rcases h with rfl | rfl
  · exact ⟨0, by decide, by simp⟩
  · exact ⟨1, by decide, by simp [frac, rounded, withRounding, withOverflow, bit]⟩

theorem Format.trit_represents {q : ℚ} (h : q = -1 ∨ q = 0 ∨ q = 1) : Format.trit.rounded.Represents q := by
  rcases h with rfl | rfl | rfl
  · exact ⟨-1, by decide, by simp [frac, rounded, withRounding, withOverflow, trit]⟩
  · exact ⟨0, by decide, by simp⟩
  · exact ⟨1, by decide, by simp [frac, rounded, withRounding, withOverflow, trit]⟩

theorem Shape.value_cut {cut : Float} (hcut : cut.isFinite = true) {x : Fixed} (hfinite : x.toFloat.isFinite = true) :
    ((Shape.cut cut).apply x).value = value (selectCut cut x.toFloat) := by
  rw [(selectCut_eq hcut hfinite).2, apply]
  simp only [Binary64.lt_iff hcut hfinite, Binary64.lt_iff hfinite (y := -cut) (by rwa [Binary64.isFinite_neg]),
    Binary64.value_neg, apply_ite Fixed.value, Fixed.value_one, Fixed.value_minusOne, Fixed.value_zero]

theorem Format.value_narrow_of_represents {f : Format} {x : Fixed} {q : ℚ} (hx : x.value = q) (h : f.Represents q) :
    (x.narrow f).value = q := by rw [Fixed.value_narrow, hx, f.narrowValue_of_represents h]

theorem value_sign_true {x : Fixed} (hfinite : x.toFloat.isFinite = true) (hexact : value x.toFloat = x.value) :
    (((Shape.sign false).apply x).narrow Format.bit.rounded).value = value (selectSign true x.toFloat) := by
  rw [(selectSign_eq true hfinite).2, hexact]
  refine Format.value_narrow_of_represents (Shape.value_sign false x) (Format.bit_represents ?_)
  split
  · exact .inr rfl
  · exact .inl rfl

theorem value_sign_false {x : Fixed} (hfinite : x.toFloat.isFinite = true) (hexact : value x.toFloat = x.value) :
    (((Shape.sign true).apply x).narrow Format.trit.rounded).value = value (selectSign false x.toFloat) := by
  rw [(selectSign_eq false hfinite).2, hexact]
  refine Format.value_narrow_of_represents (Shape.value_sign true x) (Format.trit_represents ?_)
  split
  · exact .inr (.inr rfl)
  · exact .inl rfl

theorem value_cut_rounded {cut : Float} (hcut : cut.isFinite = true) {x : Fixed} (hfinite : x.toFloat.isFinite = true) :
    (((Shape.cut cut).apply x).narrow Format.trit.rounded).value = value (selectCut cut x.toFloat) := by
  refine Format.value_narrow_of_represents (Shape.value_cut hcut hfinite) (Format.trit_represents ?_)
  rw [(selectCut_eq hcut hfinite).2]
  split
  · exact .inr (.inr rfl)
  · split
    · exact .inl rfl
    · exact .inr (.inl rfl)

theorem toFloat_narrow_exact (f : Format) (x : Fixed) : value (x.narrow f).toFloat = nearest (x.narrow f).value :=
  (x.narrow_inRange f).moderate.toFloat_exact.2

namespace Quantizer

/-- The activation gives the projection, as a value and as a number, but for the values that are set apart. -/
structure Follows (q : Quantizer) (x y : Fixed) : Prop where
  isFinite : (q.project x.toFloat).isFinite = true
  value_eq_iff : y.value = value (q.project x.toFloat) ↔ ¬ q.IsBelow x.value ∧ ¬ q.IsAbove x.value
  number_eq_iff : value y.toFloat = value (q.project x.toFloat) ↔ ¬ q.IsBelow x.value

theorem follows_of_eq {q : Quantizer} {x z : Fixed} {f : Format} (hfinite : (q.project x.toFloat).isFinite = true)
    (hbelow : ¬ q.IsBelow x.value) (habove : ¬ q.IsAbove x.value)
    (h : (z.narrow f).value = value (q.project x.toFloat)) : q.Follows x (z.narrow f) := by
  refine ⟨hfinite, iff_of_true h ⟨hbelow, habove⟩, iff_of_true ?_ hbelow⟩
  rw [toFloat_narrow_exact, h, Binary64.nearest_value]

/-- Activation against projection, quantizer by quantizer. -/
theorem follows {q : Quantizer} {f : Format} (hq : q.IsRead) (hunit : q.alpha.isUnit = true) (hf : q.format = .ok f)
    {x : Fixed} (hfinite : x.toFloat.isFinite = true) (hexact : value x.toFloat = x.value) :
    q.Follows x ((q.shape.apply x).narrow f.rounded) := by
  cases q with
  | uniform q =>
    cases hb : q.isBinary with
    | true =>
      have hbit : f = .bit := by
        rw [format, Uniform.format, hb, if_pos rfl] at hf
        cases hf
        rfl
      have hproject : (uniform q).project x.toFloat = selectSign true x.toFloat := by
        rw [project, Uniform.project, hb, if_pos rfl]
      have hshape : (uniform q).shape = .sign false := by rw [shape, hb, if_pos rfl]
      have hnot (h : q.isBinary = false) : False := Bool.false_ne_true (h.symm.trans hb)
      rw [hshape, hbit]
      refine follows_of_eq ?_ (fun h ↦ hnot h.1) (fun h ↦ hnot h.1) ?_ <;> rw [hproject]
      · exact (selectSign_eq true hfinite).1
      · exact value_sign_true hfinite hexact
    | false =>
      obtain ⟨hproject, hvalue⟩ := Uniform.project_exact hb hq hf hfinite
      have hactivation := Uniform.value_activation hb hq hf x
      have hnearest := Uniform.nearest_clamp_eq_iff hb hq hf hfinite
      refine ⟨hproject, ?_, ?_⟩
      · rw [hactivation, project, hvalue, hexact, mul_left_inj' (by positivity), Int.cast_inj]
        exact Uniform.clamps_eq_iff hb hq hf x.value
      · rw [toFloat_narrow_exact, hactivation, ← hexact]
        exact hnearest
  | ternary q =>
    cases hf
    obtain ⟨hcut, hcutValue⟩ := Binary64.mul_one_exact hq.2
    have halpha : q.alpha = .fixed 1 := Alpha.eq_one_of_isUnit hunit hq.1
    have hproject : (ternary q).project x.toFloat = selectCut (q.cut * 1) x.toFloat := by
      rw [project, Ternary.project, halpha]
    refine follows_of_eq ?_ not_false not_false ?_ <;> rw [hproject]
    · exact (selectCut_eq hcut hfinite).1
    · rw [(selectCut_eq hcut hfinite).2, hcutValue, ← (selectCut_eq hq.2 hfinite).2]
      exact value_cut_rounded hq.2 hfinite
  | binary q =>
    cases hf
    refine follows_of_eq (selectSign_eq q.xnor hfinite).1 not_false not_false ?_
    rw [shape, Binary.format, project, Binary.project]
    cases q.xnor with
    | true => exact value_sign_true hfinite hexact
    | false => exact value_sign_false hfinite hexact

theorem isUnit_of_checkActivation {q : Quantizer} (h : q.checkActivation = .ok ()) : q.alpha.isUnit = true := by
  unfold checkActivation at h
  split at h
  · assumption
  · cases h

end Quantizer

/-- A quantizer compiled as an activation gives its own projection exactly if the value is neither at or below the level
that a symmetric quantizer leaves out, nor above a range of more than 53 bits of magnitude; as numbers, exactly if it is
not the former. -/
theorem activation_follows_projection {text : String} {q : Quantizer} {f : Format} (hread : Quantizer.read text = .ok q)
    (hcheck : q.checkActivation = .ok ()) (hf : q.format = .ok f) {g : Graph} {t : Typing g} {i : Fin g.size}
    (hop : (g.layer i).op = .activation (.quantized q)) (hresult : (t.get i).formats.get .result = some f.rounded) :
    ∃ shape, g.compileKernel t i = .ok (.activation shape f.rounded) ∧ ∀ x : Fixed, x.toFloat.isFinite = true →
      value x.toFloat = x.value → q.Follows x ((shape.apply x).narrow f.rounded) := by
  refine ⟨q.shape, ?_, fun x hfinite hexact ↦ ?_⟩
  · have hat : (g.layer i).formatAt (t.get i).formats .result = .ok f.rounded := by
      rw [Layer.formatAt, hresult]
    unfold Graph.compileKernel
    dsimp only
    rw [hop, hat]
    rfl
  · exact Quantizer.follows (Quantizer.isRead_of_read hread) (Quantizer.isUnit_of_checkActivation hcheck)
      hf hfinite hexact

def symmetricNibble : Uniform := { bits := 4, integer := 0, symmetric := true, bits_bounds := by decide }

def nibbleFormat : Format :=
  { total := 4, integer := 1, signed := true, integer_bounds := Format.bit.integer_bounds }

def nibbleGraph : Graph :=
  { affineGraph with
    layers := #v[⟨"x", .input, [], 1⟩,
      ⟨"quantizer", .activation (.quantized (.uniform symmetricNibble)), [affineGraph.input], 1⟩] }

def nibbleTyping : Typing nibbleGraph :=
  #v[⟨{ result := some default }, 1024⟩, ⟨{ result := some nibbleFormat.rounded }, 1024⟩]

set_option maxRecDepth 20000 in
theorem read_symmetricNibble : Quantizer.read "quantized_bits(4,0,1)" = .ok (.uniform symmetricNibble) := rfl

theorem toFloat_of_small {n : ℤ} (h : |n| ≤ 2 ^ 53) : (Fixed.mk n 0).toFloat.isFinite = true ∧
    value (Fixed.mk n 0).toFloat = (Fixed.mk n 0).value := by
  have hmoderate : (Fixed.mk n 0).Moderate := .of_le (by dsimp only; omega) (by norm_num) (by norm_num)
  obtain ⟨hfinite, hvalue⟩ := hmoderate.toFloat_exact
  refine ⟨hfinite, hvalue.trans ?_⟩
  exact Binary64.nearest_eq_self (n := n) (e := 0) rfl h (by norm_num)

theorem level_symmetricNibble (n : ℤ) : symmetricNibble.level (Fixed.mk n 0).value = n * 8 := by
  have hscaled : (Fixed.mk n 0).value * 2 ^ (symmetricNibble.magnitude - symmetricNibble.integer : ℤ)
    = (n * 8 : ℤ) := by
    have hexponent : (symmetricNibble.magnitude - symmetricNibble.integer : ℤ) = 3 := rfl
    rw [hexponent, Fixed.value]
    push_cast
    norm_num
  rw [Uniform.level, hscaled, Rounding.round_intCast]

/-- Above the levels the two agree: both give the highest one. -/
theorem activation_follows_projection_nibble : Quantizer.read "quantized_bits(4,0,1)" = .ok (.uniform symmetricNibble) ∧
    (Quantizer.uniform symmetricNibble).checkActivation = .ok () ∧
    (Quantizer.uniform symmetricNibble).format = .ok nibbleFormat ∧
    ∃ shape, nibbleGraph.compileKernel nibbleTyping nibbleGraph.output = .ok (.activation shape nibbleFormat.rounded) ∧
      ((shape.apply ⟨1, 0⟩).narrow nibbleFormat.rounded).value =
        value ((Quantizer.uniform symmetricNibble).project (Fixed.mk 1 0).toFloat) := by
  obtain ⟨hfinite, hexact⟩ := toFloat_of_small (n := 1) (by norm_num)
  obtain ⟨shape, hcompile, h⟩ :=
    activation_follows_projection (f := nibbleFormat) (g := nibbleGraph) (t := nibbleTyping)
    (i := nibbleGraph.output) read_symmetricNibble rfl rfl rfl rfl
  refine ⟨read_symmetricNibble, rfl, rfl, shape, hcompile, (h ⟨1, 0⟩ hfinite hexact).value_eq_iff.mpr ⟨?_, ?_⟩⟩
  · rintro ⟨-, -, -, -, hlevel⟩
    rw [level_symmetricNibble] at hlevel
    exact absurd hlevel (by decide)
  · rintro ⟨-, hlarge, -⟩
    exact absurd hlarge (by decide)

/-- Minus five projects to the lowest level that a symmetric quantizer has; its activation goes one further. -/
theorem activation_ne_project_symmetric : ∃ (q : Quantizer) (f : Format) (x : Fixed),
    Quantizer.read "quantized_bits(4,0,1)" = .ok q ∧ q.checkActivation = .ok () ∧ q.format = .ok f ∧
    nibbleGraph.compileKernel nibbleTyping nibbleGraph.output = .ok (.activation q.shape f.rounded) ∧
    x.toFloat.isFinite = true ∧ value x.toFloat = x.value ∧
    ((q.shape.apply x).narrow f.rounded).value ≠ value (q.project x.toFloat) := by
  obtain ⟨hfinite, hexact⟩ := toFloat_of_small (n := -5) (by norm_num)
  refine ⟨.uniform symmetricNibble, nibbleFormat, ⟨-5, 0⟩, read_symmetricNibble, rfl, rfl, rfl, hfinite, hexact,
    fun heq ↦ ?_⟩
  have hfollows := Quantizer.follows (q := .uniform symmetricNibble)
    (Quantizer.isRead_of_read read_symmetricNibble) rfl rfl
    hfinite hexact
  refine (hfollows.value_eq_iff.mp heq).1 ⟨rfl, rfl, rfl, by decide, ?_⟩
  rw [level_symmetricNibble]
  decide

end FixedNet

import FixedNet.Proofs.Inference.Exact
import FixedNet.Proofs.Precision.Accumulator

namespace FixedNet

/-- The narrowing into the accumulator floors and finds the result in range, so that reduction changes nothing; where
it is meant to be exact, nothing is lost at all. -/
def Event.Kept (f : Format) (exact : Prop) (e : Event) : Prop :=
  ∀ f' x, e = .narrowing .accum f' x → f' = f ∧ f.InRange ⌊x.value * 2 ^ f.frac⌋ ∧
    x.narrow f = ⟨⌊x.value * 2 ^ f.frac⌋, f.frac⟩ ∧ (exact → (x.narrow f).value = x.value)

/-- A term between two raw values after flooring, on the grid where exactness is wanted. -/
structure Format.Takes (f : Format) (low high : ℤ) (exact : Prop) (q : ℚ) : Prop where
  low_le : low ≤ ⌊q * 2 ^ f.frac⌋
  le_high : ⌊q * 2 ^ f.frac⌋ ≤ high
  on_grid : exact → ∃ n : ℤ, q * 2 ^ f.frac = n

/-- What has been accumulated after a number of terms. -/
structure Fixed.Accumulated (f : Format) (low high : ℤ) (terms : ℕ) (x : Fixed) : Prop where
  frac_eq : x.frac = f.frac
  low_le : terms * low ≤ x.raw
  le_high : x.raw ≤ terms * high

/-- Room for so many terms that are still to come. -/
def Fixed.HasRoom (f : Format) (low high : ℤ) (terms rest : ℕ) (acc : Fixed) : Prop :=
  ∃ n, n + rest ≤ terms ∧ acc.Accumulated f low high n

/-- An accumulator in a loop that will end at a total where nothing is lost. -/
structure Fixed.Accumulating (f : Format) (low high : ℤ) (exact : Prop) (terms : ℕ) (total : ℚ) (rest : List ℚ)
    (acc : Fixed) : Prop where
  room : acc.HasRoom f low high terms rest.length
  takes : ∀ q ∈ rest, f.Takes low high exact q
  total_eq : exact → acc.value + rest.sum = total

variable {f : Format} {low high : ℤ} {exact : Prop} {terms n : ℕ} {x acc : Fixed}

theorem Fixed.HasRoom.of_succ (h : acc.HasRoom f low high terms (n + 1)) : acc.HasRoom f low high terms n := by
  obtain ⟨k, hk, hacc⟩ := h
  exact ⟨k, by omega, hacc⟩

theorem kept_product (x y : Fixed) : (Event.product x y).Kept f exact := by rintro f' z ⟨⟩

theorem kept_sum (x y : Fixed) : (Event.sum x y).Kept f exact := by rintro f' z ⟨⟩

theorem kept_result (f' : Format) (x : Fixed) : (Event.narrowing .result f' x).Kept f exact := by rintro f'' z ⟨⟩

theorem Fixed.value_mul_zpow (x : Fixed) : x.value * 2 ^ x.frac = x.raw := by
  rw [value, mul_assoc, ← zpow_add₀ two_ne_zero, neg_add_cancel, zpow_zero, mul_one]

theorem Fixed.value_plus_mul_zpow (acc x : Fixed) :
    (acc.plus x).value * 2 ^ acc.frac = acc.raw + x.value * 2 ^ acc.frac := by
  rw [value_plus, add_mul, value_mul_zpow]

theorem Fixed.narrow_of_inRange (hr : f.rounding = .down) (h : f.InRange ⌊x.value * 2 ^ f.frac⌋) :
    x.narrow f = ⟨⌊x.value * 2 ^ f.frac⌋, f.frac⟩ := by
  rw [narrow_eq, Format.rawOf, hr, Rounding.round, f.reduce_of_inRange h]

theorem Fixed.value_narrow_of_eq (hr : f.rounding = .down) (h : f.InRange ⌊x.value * 2 ^ f.frac⌋) {n : ℤ}
    (hn : x.value * 2 ^ f.frac = n) : (x.narrow f).value = x.value := by
  have hpos : (2 : ℚ) ^ f.frac ≠ 0 := by positivity
  rw [narrow_of_inRange hr h, value]
  dsimp only
  rw [hn, Int.floor_intCast, ← hn, mul_assoc, ← zpow_add₀ two_ne_zero, add_neg_cancel, zpow_zero, mul_one]

theorem kept_narrowing (hr : f.rounding = .down) (h : f.InRange ⌊x.value * 2 ^ f.frac⌋)
    (hexact : exact → ∃ n : ℤ, x.value * 2 ^ f.frac = n) : (Event.narrowing .accum f x).Kept f exact := by
  rintro f' y ⟨⟩
  refine ⟨rfl, h, Fixed.narrow_of_inRange hr h, fun he ↦ ?_⟩
  obtain ⟨n, hn⟩ := hexact he
  exact Fixed.value_narrow_of_eq hr h hn

namespace Format.Absorbs

variable (hf : f.Absorbs terms low high)

include hf

/-- So many terms are in range. -/
theorem inRange (hn : n ≤ terms) {m : ℤ} (hlow : n * low ≤ m) (hhigh : m ≤ n * high) : f.InRange m := by
  have h0 := hf.low_nonpos
  have h1 := hf.high_nonneg
  have hcast : (n : ℤ) ≤ terms := by exact_mod_cast hn
  exact ⟨hf.rawMin_le.trans ((mul_le_mul_of_nonpos_right hcast h0).trans hlow),
    hhigh.trans ((mul_le_mul_of_nonneg_right hcast h1).trans hf.le_rawMax)⟩

/-- One step of a loop: a term goes on top of what has been accumulated. -/
theorem recordSum (hacc : acc.Accumulated f low high n) (hn : n + 1 ≤ terms) (hx : f.Takes low high exact x.value) :
    (recordSum .accum f acc x).Ensures (Event.Kept f exact) fun sum ↦
      sum.Accumulated f low high (n + 1) ∧ (exact → sum.value = acc.value + x.value) := by
  have hscaled : (acc.plus x).value * 2 ^ f.frac = acc.raw + x.value * 2 ^ f.frac := by
    rw [← hacc.frac_eq, acc.value_plus_mul_zpow]
  have hfloor : ⌊(acc.plus x).value * 2 ^ f.frac⌋ = acc.raw + ⌊x.value * 2 ^ f.frac⌋ := by
    rw [hscaled, Int.floor_intCast_add]
  have hlow : ((n + 1 : ℕ) : ℤ) * low ≤ ⌊(acc.plus x).value * 2 ^ f.frac⌋ := by
    have h₁ := hacc.low_le
    have h₂ := hx.low_le
    rw [hfloor]
    push_cast
    linarith
  have hhigh : ⌊(acc.plus x).value * 2 ^ f.frac⌋ ≤ ((n + 1 : ℕ) : ℤ) * high := by
    have h₁ := hacc.le_high
    have h₂ := hx.le_high
    rw [hfloor]
    push_cast
    linarith
  have hrange := hf.inRange hn hlow hhigh
  have hgrid : exact → ∃ m : ℤ, (acc.plus x).value * 2 ^ f.frac = m := by
    intro he
    obtain ⟨m, hm⟩ := hx.on_grid he
    exact ⟨acc.raw + m, by rw [hscaled, hm]; push_cast; rfl⟩
  have hnarrow := Fixed.narrow_of_inRange hf.rounding_eq hrange
  refine ⟨(all_recordSum _ _ _ _).mpr ⟨kept_sum _ _, kept_narrowing hf.rounding_eq hrange hgrid⟩, ?_, fun he ↦ ?_⟩
  · change ((acc.plus x).narrow f).Accumulated f low high (n + 1)
    rw [hnarrow]
    exact ⟨rfl, hlow, hhigh⟩
  · obtain ⟨m, hm⟩ := hgrid he
    rw [← Fixed.value_plus]
    exact Fixed.value_narrow_of_eq hf.rounding_eq hrange hm

/-- A narrowed product is a term like the product itself. -/
theorem recordProduct {y : Fixed} (hterms : 1 ≤ terms) (hxy : f.Takes low high exact (x.value * y.value)) :
    (recordProduct .accum f x y).Ensures (Event.Kept f exact) fun product ↦
      f.Takes low high exact product.value ∧ (exact → product.value = x.value * y.value) := by
  rw [← Fixed.value_times] at hxy ⊢
  have hrange : f.InRange ⌊(x.times y).value * 2 ^ f.frac⌋ :=
    hf.inRange hterms (by simpa using hxy.low_le) (by simpa using hxy.le_high)
  have hnarrow := Fixed.narrow_of_inRange hf.rounding_eq hrange
  refine ⟨(all_recordProduct _ _ _ _).mpr ⟨kept_product _ _, kept_narrowing hf.rounding_eq hrange hxy.on_grid⟩, ?_,
    fun he ↦ ?_⟩
  · change f.Takes low high exact ((x.times y).narrow f).value
    have hscaled : ((x.times y).narrow f).value * 2 ^ f.frac = ⌊(x.times y).value * 2 ^ f.frac⌋ := by
      rw [hnarrow]
      exact Fixed.value_mul_zpow ⟨_, f.frac⟩
    refine ⟨?_, ?_, fun _ ↦ ⟨_, hscaled⟩⟩ <;> rw [hscaled, Int.floor_intCast]
    · exact hxy.low_le
    · exact hxy.le_high
  · obtain ⟨m, hm⟩ := hxy.on_grid he
    exact Fixed.value_narrow_of_eq hf.rounding_eq hrange hm

theorem accumulated_zero : (Fixed.zero.narrow f).Accumulated f low high 0 := by
  have hrange : f.InRange ⌊Fixed.zero.value * 2 ^ f.frac⌋ := by simpa using f.inRange_zero
  rw [Fixed.narrow_of_inRange hf.rounding_eq hrange]
  refine ⟨rfl, ?_, ?_⟩ <;> simp

theorem kept_zero : (Event.narrowing .accum f .zero).Kept f exact := by
  refine kept_narrowing hf.rounding_eq (by simpa using f.inRange_zero) fun _ ↦ ⟨0, by simp⟩

theorem accumulating_zero {qs : List ℚ} (hlength : qs.length ≤ terms)
    (hqs : ∀ q ∈ qs, f.Takes low high exact q) :
    (Fixed.zero.narrow f).Accumulating f low high exact terms qs.sum qs := by
  refine ⟨⟨0, by omega, hf.accumulated_zero⟩, hqs, fun _ ↦ ?_⟩
  rw [Fixed.value_narrow_of_eq hf.rounding_eq (by simpa using f.inRange_zero) (n := 0) (by simp), Fixed.value_zero,
    zero_add]

theorem hasRoom_recordSum (hacc : acc.HasRoom f low high terms (n + 1)) (hx : f.Takes low high exact x.value) :
    (FixedNet.recordSum .accum f acc x).Ensures (Event.Kept f exact) fun sum ↦
      sum.HasRoom f low high terms n ∧ (exact → sum.value = acc.value + x.value) := by
  obtain ⟨k, hk, hacc⟩ := hacc
  exact (hf.recordSum hacc (by omega) hx).mono fun sum hsum ↦ ⟨⟨k + 1, by omega, hsum.1⟩, hsum.2⟩

theorem accumulating_recordSum {total q : ℚ} {rest : List ℚ}
    (hacc : acc.Accumulating f low high exact terms total (q :: rest)) (hx : f.Takes low high exact x.value)
    (hq : exact → x.value = q) : (FixedNet.recordSum .accum f acc x).Ensures (Event.Kept f exact)
      (Fixed.Accumulating f low high exact terms total rest) := by
  refine (hf.hasRoom_recordSum hacc.room hx).mono fun sum ⟨hroom, hsum⟩ ↦
    ⟨hroom, fun r hr ↦ hacc.takes r (List.mem_cons_of_mem q hr), fun he ↦ ?_⟩
  rw [hsum he, hq he, add_assoc, ← List.sum_cons]
  exact hacc.total_eq he

/-- A loop of products. -/
theorem recordProducts {pairs : List (Fixed × Fixed)} (hlength : pairs.length ≤ terms)
    (hpairs : ∀ p ∈ pairs, f.Takes low high exact (p.1.value * p.2.value)) :
    (recordProducts f (Fixed.zero.narrow f) pairs).Ensures (Event.Kept f exact) fun sum ↦
      exact → sum.value = (pairs.map fun p ↦ p.1.value * p.2.value).sum := by
  have hzero := hf.accumulating_zero (by rwa [List.length_map]) (List.forall_mem_map.mpr hpairs)
  generalize (pairs.map fun p ↦ p.1.value * p.2.value).sum = total at hzero ⊢
  rw [recordProducts_eq_foldlM]
  refine (Recorded.ensures_foldlM (I := fun rest b ↦ b.Accumulating f low high exact terms total
    (rest.map fun p ↦ p.1.value * p.2.value)) ?_ hzero).mono fun sum hsum he ↦ by simpa using hsum.total_eq he
  intro p rest b hb
  obtain ⟨k, hk, -⟩ := hb.room
  rw [List.map_cons, List.length_cons] at hk
  have hproduct := hf.recordProduct (by omega) (hb.takes _ List.mem_cons_self)
  exact hproduct.bind fun x hx ↦ hf.accumulating_recordSum hb hx.1 hx.2

/-- A loop of sums. -/
theorem recordTerms {xs : List Fixed} (hlength : xs.length ≤ terms)
    (hxs : ∀ x ∈ xs, f.Takes low high exact x.value) :
    (recordTerms f (Fixed.zero.narrow f) xs).Ensures (Event.Kept f exact) fun sum ↦
      exact → sum.value = (xs.map Fixed.value).sum := by
  have hzero := hf.accumulating_zero (by rwa [List.length_map]) (List.forall_mem_map.mpr hxs)
  generalize (xs.map Fixed.value).sum = total at hzero ⊢
  rw [recordTerms_eq_foldlM]
  refine (Recorded.ensures_foldlM (I := fun rest b ↦ b.Accumulating f low high exact terms total
    (rest.map Fixed.value)) ?_ hzero).mono fun sum hsum he ↦ by simpa using hsum.total_eq he
  intro x rest b hb
  exact hf.accumulating_recordSum hb (hb.takes _ List.mem_cons_self) fun _ ↦ rfl

theorem foldlM_recordEntries {accs : List Fixed} {xss : List (List Fixed)}
    (haccs : ∀ a ∈ accs, a.Accumulated f low high 0) (hlength : xss.length ≤ terms)
    (hxss : ∀ xs ∈ xss, ∀ x ∈ xs, f.Takes low high exact x.value) :
    (xss.foldlM (recordEntries f) accs).All (Event.Kept f exact) := by
  refine (Recorded.ensures_foldlM
    (I := fun rest as ↦ rest ⊆ xss ∧ ∀ a ∈ as, a.HasRoom f low high terms rest.length) ?_
    ⟨List.Subset.refl xss, fun a ha ↦ ⟨0, by omega, haccs a ha⟩⟩).all
  rintro xs rest as ⟨hsub, has⟩
  obtain ⟨hxs, hrest⟩ := List.cons_subset.mp hsub
  refine (ensures_recordEntries has (fun a ha ↦ ha.of_succ) fun x hx a ha ↦ ?_).mono fun ys hys ↦ ⟨hrest, hys⟩
  exact (hf.hasRoom_recordSum ha (hxss xs hxs x hx)).mono fun sum hsum ↦ hsum.1

end Format.Absorbs

end FixedNet

import FixedNet.Proofs.Inference.Filling
import FixedNet.Proofs.Inference.Ready
import FixedNet.Proofs.Inference.Slots
import FixedNet.Proofs.Precision.Exported

namespace FixedNet

namespace Fixed

/-- Values of at most 64 bits on one grid, less than `2 ^ bits` apart. -/
structure Close (bits : ℤ) (xs : List Fixed) : Prop where
  grid : ∃ frac, -128 ≤ frac ∧ frac ≤ 128 ∧ ∀ x ∈ xs, x.frac = frac
  raw_lt : ∀ x ∈ xs, |x.raw| < 2 ^ 65
  apart_lt : ∀ x ∈ xs, ∀ y ∈ xs, x.value - y.value < 2 ^ bits

/-- The largest value is found, and the differences to it are exact and less than `2 ^ bits` below zero. -/
structure ExponentsIn (bits : ℤ) (x : Fixed) (xs : List Fixed) : Prop where
  compares : ∀ y ∈ x :: xs, ∀ z ∈ x :: xs, y.compareValue z = compare y.value z.value
  subtracts : ∀ y ∈ x :: xs, ∀ z ∈ x :: xs, ∃ d, y.sub z = .ok d ∧ d.value = y.value - z.value
  largest_mem : xs.foldl larger x ∈ x :: xs
  le_largest : ∀ y ∈ x :: xs, y.value ≤ (xs.foldl larger x).value
  exponents : ∃ ds, (x :: xs).mapM (fun y ↦ y.sub (xs.foldl larger x)) = .ok ds ∧
    (∀ exp : ExpTable, exp.lookupAll (x :: xs) = .ok (ds.map exp.lookup)) ∧
    (∀ d ∈ ds, -(2 ^ bits) < d.value ∧ d.value ≤ 0) ∧ ∃ d ∈ ds, d.value = 0

namespace Close

variable {bits : ℤ} {x y : Fixed} {xs : List Fixed}

theorem handed (h : Close bits xs) (hx : x ∈ xs) : x.Handed := by
  obtain ⟨frac, hlo, hhi, hfrac⟩ := h.grid
  have hraw := h.raw_lt x hx
  obtain ⟨h₁, h₂⟩ := abs_lt.mp hraw
  have hf := hfrac x hx
  exact ⟨⟨by omega, by omega⟩, ⟨by omega, by omega⟩, by omega, by omega⟩

theorem frac_eq (h : Close bits xs) (hx : x ∈ xs) (hy : y ∈ xs) : x.frac = y.frac := by
  obtain ⟨frac, -, -, hfrac⟩ := h.grid
  rw [hfrac x hx, hfrac y hy]

theorem compareValue_eq (h : Close bits xs) (hx : x ∈ xs) (hy : y ∈ xs) :
    x.compareValue y = compare x.value y.value := by
  obtain ⟨hfits, -, hlo, hhi⟩ := h.handed hx
  obtain ⟨hfits', hneg', -, -⟩ := h.handed hy
  exact Fixed.compareValue_eq (h.frac_eq hx hy) (by omega) (by omega) hfits hfits' hneg'

theorem sub_ok (h : Close bits xs) (hx : x ∈ xs) (hy : y ∈ xs) : x.sub y = .ok (x.plus y.opposite) := by
  have hraw := h.raw_lt x hx
  have hraw' := h.raw_lt y hy
  have hsum : FitsWord (x.raw + y.opposite.raw) := by
    refine .of_abs_lt ((abs_add_le _ _).trans_lt ?_)
    rw [opposite, abs_neg]
    omega
  have hfrac : x.frac = y.opposite.frac := (h.frac_eq hx hy : x.frac = y.frac)
  rw [sub_eq (h.handed hy).fits_neg]
  exact add_ok ((sumFits_iff hfrac (h.handed hx).fits (h.handed hy).fits_neg).mpr hsum)

theorem le_foldl_larger (h : Close bits (x :: xs)) (hy : y ∈ x :: xs) : y.value ≤ (xs.foldl larger x).value := by
  obtain ⟨frac, -, -, hfrac⟩ := h.grid
  have hmax : ((x :: xs).map value).max? = some (xs.foldl larger x).value := by
    rw [value_foldl_larger ⟨frac, fun z hz ↦ ⟨h.handed hz, hfrac z hz⟩⟩, List.map_cons, List.max?_cons']
  exact (List.max?_eq_some_iff.mp hmax).2 _ (List.mem_map_of_mem hy)

theorem exponentsIn (h : Close bits (x :: xs)) : ExponentsIn bits x xs := by
  have hmem := foldl_larger_mem x xs
  have hle {y : Fixed} (hy : y ∈ x :: xs) := h.le_foldl_larger hy
  have hvalue (y z : Fixed) : (y.plus z.opposite).value = y.value - z.value := by
    rw [value_plus, value_opposite, sub_eq_add_neg]
  refine ⟨fun y hy z hz ↦ h.compareValue_eq hy hz, fun y hy z hz ↦ ⟨_, h.sub_ok hy hz, hvalue y z⟩, hmem,
    fun y hy ↦ hle hy, (x :: xs).map fun y ↦ y.plus (xs.foldl larger x).opposite, ?_, fun exp ↦ ?_, fun d hd ↦ ?_, ?_⟩
  · exact mapM_eq_ok_map fun y hy ↦ h.sub_ok hy hmem
  · rw [List.map_map]
    refine mapM_eq_ok_map fun y hy ↦ ?_
    rw [h.sub_ok hy hmem]
    rfl
  · obtain ⟨y, hy, rfl⟩ := List.mem_map.mp hd
    have hapart := h.apart_lt _ hmem y hy
    have hy' := hle hy
    rw [hvalue]
    constructor <;> linarith
  · exact ⟨_, List.mem_map_of_mem hmem, by rw [hvalue, sub_self]⟩

end Close

theorem close_of_onGrid {f : Format} {xs : List Fixed} (h : ∀ x ∈ xs, x.OnGrid f) : Close f.integer xs := by
  refine ⟨⟨f.frac, ?_, ?_, fun x hx ↦ (h x hx).frac_eq⟩, fun x hx ↦ ?_, fun x hx y hy ↦ ?_⟩
  · have := f.frac_bounds
    omega
  · have := f.frac_bounds
    omega
  · have := (h x hx).inRange.bounds
    rw [abs_lt]
    omega
  · obtain ⟨hfrac, hlo, hhi⟩ := h x hx
    obtain ⟨hfrac', hlo', hhi'⟩ := h y hy
    have hraw : ((x.raw - y.raw : ℤ) : ℚ) < (2 ^ f.total : ℤ) := by
      have := f.rawMax_eq
      exact_mod_cast (by omega : x.raw - y.raw < 2 ^ f.total)
    have hsplit : (2 : ℚ) ^ f.integer = 2 ^ f.total * 2 ^ (-f.frac) := by
      rw [← zpow_natCast, ← zpow_add₀ two_ne_zero, Format.frac]
      congr 1
      omega
    rw [value, value, hfrac, hfrac', ← sub_mul, hsplit]
    push_cast at hraw
    exact mul_lt_mul_of_pos_right hraw (Binary64.two_zpow_pos _)

theorem close_decoded {f : Format} (hone : f.Represents 1) {xs : List Fixed} (h : ∀ x ∈ xs, x.OnGrid f)
    (hcodes : ∀ x ∈ xs, x.value = 0 ∨ x.value = 1) : Close 2 (xs.map decoded) := by
  obtain ⟨hlo, hhi⟩ := Format.frac_of_represents_one hone
  have hvalue {y : Fixed} (hy : y ∈ xs.map decoded) : y.value = -1 ∨ y.value = 1 := by
    obtain ⟨x, hx, rfl⟩ := List.mem_map.mp hy
    rw [value_decoded]
    rcases hcodes x hx with h | h <;> rw [h] <;> norm_num
  refine ⟨⟨f.frac, by omega, by omega, fun y hy ↦ ?_⟩, fun y hy ↦ ?_, fun y hy z hz ↦ ?_⟩
  · obtain ⟨x, hx, rfl⟩ := List.mem_map.mp hy
    rw [decoded_frac, (h x hx).frac_eq, max_eq_left hlo]
  · obtain ⟨x, hx, rfl⟩ := List.mem_map.mp hy
    exact (Format.arrives_decoded hone (h x hx).frac_eq (hcodes x hx)).abs_raw_lt.trans (by norm_num)
  · rcases hvalue hy with hy | hy <;> rcases hvalue hz with hz | hz <;> rw [hy, hz] <;> norm_num

end Fixed

theorem decodeInput_codes {f : Format} (hone : f.Represents 1) {xs : List Fixed} (h : ∀ x ∈ xs, x.OnGrid f) :
    decodeInput true xs = .ok (xs.map Fixed.decoded) := by
  obtain ⟨hlo, hhi⟩ := Format.frac_of_represents_one hone
  refine mapM_eq_ok_map fun x hx ↦ ?_
  have hfrac := (h x hx).frac_eq
  exact (recordBipolar_agrees x).of_fits
    (Fixed.fits_recordBipolar (h x hx).inRange.bounds (by omega) fun hcoarse ↦ by omega)

theorem Layer.representsCodes_of_encoding {n : ℕ} {layer : Layer n} {formats : SlotMap Format}
    (h : layer.op.encoding = .xnor) (hresult : ∀ f, formats.get .result = some f → f.Represents 0 ∧ f.Represents 1) :
    layer.RepresentsCodes formats := by
  refine ⟨fun f _ ↦ hresult f, fun f hkernel ↦ ?_⟩
  obtain ⟨q, hop, -⟩ := Op.exists_of_encoding h
  rw [hop] at hkernel
  cases hkernel

theorem ExpTable.range_of_make {size : ℕ} {bits : ℤ} {f : Format} {exp : ExpTable}
    (h : ExpTable.make size bits f = .ok exp) : exp.range = Binary64.pow2 bits := by
  obtain ⟨entries, -, h⟩ := bind_eq_ok_iff.mp h
  exact congrArg ExpTable.range (pure_eq_ok_iff.mp h).symm

namespace Graph

variable {d : Description} {g : Graph} {t : Typing g} {steps before after : List (Step g.size)} {s : Step g.size}
  {i j : Fin g.size} {row : List Float} {values : Vector (List Fixed) g.size}

theorem codes_of_stepOutcome (hg : Graph.ofDescription d = .ok g) (hsteps : List.Forall₂ (g.IsStep t) g.order steps)
    (hencoding : (g.layer j).op.encoding = .xnor) (hcodes : (g.layer j).RepresentsCodes (t.get j).formats)
    (hvalues : ∀ x ∈ values.get j, x.value = 0 ∨ x.value = 1) (hsplit : steps = before ++ s :: after)
    (hbefore : (g.plan steps).outcome row before (g.plan steps).noValues = .ok values) {xs : List Fixed}
    (hrun : (g.plan steps).stepOutcome row values s = .ok xs) :
    ∀ x ∈ (s.store values xs).get j, x.value = 0 ∨ x.value = 1 := by
  intro x hx
  by_cases hj : j = s.index
  · subst hj
    rw [s.get_store_self] at hx
    have hs : s ∈ steps := by simp [hsplit]
    obtain ⟨hsound, -⟩ := sound_of_isStep hg hsteps
    obtain ⟨i, -, his⟩ := exists_of_mem_forall₂ hsteps hs
    obtain rfl := his.index_eq
    obtain ⟨-, rfl⟩ := hsound.eq_record_of_stepOutcome hs (Plan.onGrid_of_outcome hsound.result_eq hsplit hbefore) hrun
    exact his.code_of_mem hcodes hencoding hx
  · rw [Step.get_store_ne hj] at hx
    exact hvalues x hx

theorem codes_of_outcome (hg : Graph.ofDescription d = .ok g) (hsteps : List.Forall₂ (g.IsStep t) g.order steps)
    (hencoding : (g.layer j).op.encoding = .xnor) (hcodes : (g.layer j).RepresentsCodes (t.get j).formats)
    (hsplit : steps = before ++ after) (h : (g.plan steps).outcome row before (g.plan steps).noValues = .ok values) :
    ∀ x ∈ values.get j, x.value = 0 ∨ x.value = 1 := by
  refine Plan.outcome_induction (p := g.plan steps)
    (motive := fun _ values ↦ ∀ x ∈ values.get j, x.value = 0 ∨ x.value = 1) ?_ ?_ hsplit h
  · intro x hx
    have hnil : (Vector.replicate g.size ([] : List Fixed)).get j = [] := by simp [Vector.get]
    rw [show ((g.plan steps).noValues.get j) = [] from hnil] at hx
    cases hx
  · rintro before s values xs hvalues hbefore ⟨after, hsplit⟩ hrun
    exact codes_of_stepOutcome hg hsteps hencoding hcodes hvalues hsplit hbefore hrun

theorem exists_of_mem_softmax (hd : g.Describes d) (h : g.order.mapM (g.compileStep t) = .ok steps) (hs : s ∈ steps)
    {exp : ExpTable} {inv : InvTable} {accum result : Format} (hkernel : s.kernel = .softmax exp inv accum result) :
    (g.layer s.index).op = .softmax ∧ ∃ j bits f, (g.layer s.index).inputs = [j] ∧ 0 < (g.layer j).features ∧
      g.softmaxInputBits t s.index = .ok bits ∧ ExpTable.make (t.get s.index).tableSize bits f = .ok exp := by
  have hk := compileKernel_of_mem h hs
  rw [hkernel] at hk
  have hshaped := hd.shaped s.index
  obtain ⟨widths, hwidths⟩ : ∃ widths, (g.layer s.index).inputs.map (fun j ↦ (g.layer j).features) = widths := ⟨_, rfl⟩
  cases assembles_of_compileKernel hk with
  | softmax op hsize hbits _ hexp _ hinv =>
    rw [op, hwidths] at hshaped
    have hpos := InvTable.pos_of_make hsize hinv
    generalize (g.layer s.index).features = width at hshaped hpos
    cases hshaped
    obtain ⟨j, hj, rfl⟩ := List.map_eq_singleton_iff.mp hwidths
    exact ⟨op, j, _, _, hj, hpos, hbits, hexp⟩

theorem exists_close_input {bits : ℤ} (hbits : g.softmaxInputBits t i = .ok bits) (hinputs : (g.layer i).inputs = [j])
    {f : Format} (hf : (t.get j).formats.get .result = some f) (hgrid : ∀ x ∈ values.get j, x.OnGrid f)
    (hcodes : (g.layer j).op.encoding = .xnor →
      f.Represents 1 ∧ ∀ x ∈ values.get j, x.value = 0 ∨ x.value = 1) : ∃ ys,
    decodeInput (decide ((g.layer j).op.encoding = .xnor)) (values.get j) = .ok ys ∧ Fixed.Close bits ys ∧
      ((g.layer j).op.encoding = .direct ∧ bits = f.integer ∨ (g.layer j).op.encoding = .xnor ∧ bits = 2) := by
  simp only [softmaxInputBits, hinputs] at hbits
  cases hencoding : (g.layer j).op.encoding with
  | direct =>
    rw [hencoding] at hbits
    obtain ⟨f', hf', rfl⟩ := map_eq_ok_iff.mp hbits
    rw [Layer.formatAt_eq_ok_iff, hf] at hf'
    cases hf'
    exact ⟨values.get j, rfl, Fixed.close_of_onGrid hgrid, .inl ⟨rfl, rfl⟩⟩
  | xnor =>
    rw [hencoding] at hbits
    cases hbits
    obtain ⟨hone, hvalues⟩ := hcodes hencoding
    exact ⟨_, decodeInput_codes hone hgrid, Fixed.close_decoded hone hgrid hvalues, .inr ⟨rfl, rfl⟩⟩

theorem softmaxInputBits_bounds {bits : ℤ} (h : g.softmaxInputBits t i = .ok bits) : -64 ≤ bits ∧ bits ≤ 128 := by
  unfold softmaxInputBits at h
  split at h
  · cases h
    norm_num
  · split at h
    · cases h
      norm_num
    · obtain ⟨f, -, rfl⟩ := map_eq_ok_iff.mp h
      exact f.integer_bounds

end Graph

/-- Wherever a row reaches a softmax layer with inputs that words can count, they are there, decoded, and their
exponents stay in the domain of the table, which is as wide as the integer bits of the layer it reads, or two
bits for signs. -/
theorem softmax_exponents_in_domain {d : Description} {g : Graph} {t : Typing g} {p : Plan}
    (hg : Graph.ofDescription d = .ok g) (hp : g.compile t = .ok p) {row : List Float}
    {s : Step p.size} {values : p.Values} (hreach : p.Reaches row s values)
    (hheld : ∀ input ∈ s.inputs, (values.get input.1).length < 2 ^ 64) {exp : ExpTable} {inv : InvTable}
    {accum result : Format} (hkernel : s.kernel = .softmax exp inv accum result)
    (hcodes : ∀ i j f, (g.layer i).name = s.name → j ∈ (g.layer i).inputs → (g.layer j).op.encoding = .xnor →
      (t.get j).formats.get .result = some f → f.Represents 0 ∧ f.Represents 1) :
    ∃ i j f bits size entry, (g.layer i).name = s.name ∧ (g.layer i).op = .softmax ∧ (g.layer i).inputs = [j] ∧
      (t.get j).formats.get .result = some f ∧
      ((g.layer j).op.encoding = .direct ∧ bits = f.integer ∨ (g.layer j).op.encoding = .xnor ∧ bits = 2) ∧
      ExpTable.make size bits entry = .ok exp ∧ Binary64.value exp.range = 2 ^ bits ∧
      ∃ x xs, s.inputs.mapM (fun input ↦ decodeInput input.2 (values.get input.1)) = .ok [x :: xs] ∧
        Fixed.ExponentsIn bits x xs := by
  have hd := Graph.describes_of_isOk hg
  obtain ⟨steps, rfl, hcompile⟩ := Graph.exists_plan_of_compile hp
  have hlength {input : Fin g.size × Bool} (hinput : input ∈ s.inputs) :=
    Graph.length_of_reaches hg hcompile hreach hinput (hheld input hinput)
  obtain ⟨before, after, hsplit, hbefore⟩ := hreach
  change steps = before ++ s :: after at hsplit
  have hs : s ∈ steps := by
    rw [hsplit]
    exact List.mem_append_right before List.mem_cons_self
  have hsteps := (mapM_eq_ok_iff.mp hcompile).imp fun _ _ ↦ Graph.isStep_of_compileStep
  have his := Graph.isStep_of_mem hcompile hs
  obtain ⟨hop, j, bits, entry, hj, hpos, hbits, hexp⟩ := Graph.exists_of_mem_softmax hd hcompile hs hkernel
  have hinputs : s.inputs = [(j, decide ((g.layer j).op.encoding = .xnor))] := by
    rw [his.inputs_eq, hj]
    rfl
  have hinput : (j, decide ((g.layer j).op.encoding = .xnor)) ∈ s.inputs := by
    rw [hinputs]
    exact List.mem_singleton_self _
  obtain ⟨f, hf, hgrid⟩ :=
    Graph.exists_onGrid_of_outcome hg hcompile hsplit hbefore (Graph.mem_of_mem_inputs hd hcompile hsplit hinput)
  have hreads : j ∈ (g.layer s.index).inputs := by
    rw [hj]
    exact List.mem_singleton_self j
  have hboth (f : Format) := hcodes s.index j f his.name_eq.symm hreads
  obtain ⟨ys, hys, hclose, hcase⟩ := Graph.exists_close_input hbits hj hf hgrid fun hencoding ↦
    ⟨(hboth f hencoding hf).2, Graph.codes_of_outcome hg hsteps hencoding
      (Layer.representsCodes_of_encoding hencoding fun f ↦ hboth f hencoding) hsplit hbefore⟩
  obtain ⟨x, xs, rfl⟩ : ∃ x xs, ys = x :: xs := by
    refine List.exists_cons_of_length_pos ?_
    exact ((length_of_decodeInput hys).trans (hlength hinput)).symm ▸ hpos
  refine ⟨s.index, j, f, bits, _, entry, his.name_eq.symm, hop, hj, hf, hcase, hexp, ?_, x, xs, ?_, hclose.exponentsIn⟩
  · obtain ⟨hlo, hhi⟩ := Graph.softmaxInputBits_bounds hbits
    rw [ExpTable.range_of_make hexp]
    exact (Binary64.pow2_exact (by omega) (by omega)).2
  · rw [hinputs]
    exact mapM_eq_ok_iff.mpr (.cons hys .nil)

def ranked : Description :=
  [⟨"data", [], .input 2⟩, ⟨"sign", ["data"], .activation "binary()"⟩, ⟨"score", ["sign"], .softmax⟩]

def rankedGraph : Graph :=
  { scoredGraph with
    layers := #v[⟨"data", .input, [], 2⟩, ⟨"sign", .activation (.quantized (.binary ⟨true, .fixed 1⟩)),
      [scoredGraph.input], 2⟩, scoredGraph.layer scoredGraph.output] }

def rankedTyping : Typing rankedGraph :=
  let f : Format := default
  #v[⟨{ result := some f }, 1024⟩, ⟨{ result := some .bit }, 1024⟩,
    ⟨{ expTable := some f, invTable := some f, accum := some f, result := some f }, 1024⟩]

theorem ofDescription_ranked : Graph.ofDescription ranked = .ok rankedGraph := rfl

theorem representsCodes_ranked : ∀ (j : Fin 3) (f : Format), (rankedGraph.layer j).op.encoding = .xnor →
    (rankedTyping.get j).formats.get .result = some f → f.Represents 0 ∧ f.Represents 1 := by
  intro j f hencoding hf
  match j with
  | 0 | 2 => cases hencoding
  | 1 =>
    cases hf
    exact ⟨⟨0, by decide, by simp⟩, ⟨1, by decide, by simp [Format.frac, Format.bit]⟩⟩

set_option maxRecDepth 20000 in
theorem exists_reaches_ranked (hexp : Binary64.ExpFinite) :
    ∃ (steps : List (Step rankedGraph.size)) (s : Step rankedGraph.size) (values : (rankedGraph.plan steps).Values)
      (exp : ExpTable) (inv : InvTable), rankedGraph.compile rankedTyping = .ok (rankedGraph.plan steps) ∧
      (rankedGraph.plan steps).Reaches [1.5, -2] s values ∧
      (∀ input ∈ s.inputs, (values.get input.1).length < 2 ^ 64) ∧ s.kernel = .softmax exp inv default default ∧
      exp.range = Binary64.pow2 2 ∧ exp.entries.size = 1024 := by
  obtain ⟨exp, hmake⟩ := ExpTable.exists_make hexp (by norm_num : 1024 < 2 ^ 64) (by norm_num : -64 ≤ (2 : ℤ))
    (by norm_num) default
  obtain ⟨inv, hinv⟩ := InvTable.exists_make (by norm_num : 1024 < 2 ^ 64) two_ne_zero default
  have hsize : (rankedTyping.get rankedGraph.output).tableSize = 1024 := rfl
  have hfeatures : (rankedGraph.layer rankedGraph.output).features = 2 := rfl
  have hkernel : rankedGraph.compileSoftmax rankedTyping rankedGraph.output =
      .ok (.softmax exp inv default default) := by
    rw [Graph.compileSoftmax_eq_ok_iff, hsize, hfeatures]
    exact ⟨by norm_num, 2, default, exp, default, inv, default, default, rfl, rfl, hmake, rfl, hinv, rfl, rfl, rfl⟩
  obtain ⟨s, hs, hinputs, hstep⟩ : ∃ s, s.kernel = .softmax exp inv default default ∧
      s.inputs = [((1 : Fin 3), true)] ∧ rankedGraph.compileStep rankedTyping rankedGraph.output = .ok s :=
    ⟨_, rfl, rfl, bind_eq_ok_iff.mpr ⟨_, hkernel, rfl⟩⟩
  let data : Step rankedGraph.size := ⟨"data", rankedGraph.input, [], .input default⟩
  let sign : Step rankedGraph.size :=
    ⟨"sign", (1 : Fin 3), [(rankedGraph.input, false)], .activation (.sign false) .bit⟩
  have hp : rankedGraph.compile rankedTyping = .ok (rankedGraph.plan [data, sign, s]) :=
    Graph.compile_of_steps rfl (mapM_eq_ok_iff.mpr (.cons rfl (.cons rfl (.cons hstep .nil))))
  obtain ⟨values, hvalues, hlength⟩ : ∃ values, (rankedGraph.plan [data, sign, s]).outcome [1.5, -2] [data, sign]
    (rankedGraph.plan [data, sign, s]).noValues = .ok values ∧ (values.get (1 : Fin 3)).length = 2 := ⟨_, rfl, rfl⟩
  refine ⟨_, s, values, exp, inv, hp, ⟨[data, sign], [], rfl, hvalues⟩, ?_, hs, ExpTable.range_of_make hmake,
    ExpTable.size_of_make hmake⟩
  rw [hinputs]
  refine List.forall_mem_singleton.mpr ?_
  rw [hlength]
  norm_num

/-- Signs on a table of the usual size, wherever exponentials of what is not positive are numbers. -/
theorem softmax_exponents_in_domain_ranked : Graph.ofDescription ranked = .ok rankedGraph ∧
    (¬ Binary64.ExpFinite ∨ ∃ (steps : List (Step rankedGraph.size)) (s : Step rankedGraph.size)
      (values : (rankedGraph.plan steps).Values) (exp : ExpTable) (inv : InvTable) (x : Fixed) (xs : List Fixed),
      rankedGraph.compile rankedTyping = .ok (rankedGraph.plan steps) ∧
      (rankedGraph.plan steps).Reaches [1.5, -2] s values ∧
      (∀ input ∈ s.inputs, (values.get input.1).length < 2 ^ 64) ∧ s.kernel = .softmax exp inv default default ∧
      exp.entries.size = 1024 ∧
      s.inputs.mapM (fun input ↦ decodeInput input.2 (values.get input.1)) = .ok [x :: xs] ∧
      Fixed.ExponentsIn 2 x xs) := by
  refine ⟨ofDescription_ranked, or_iff_not_imp_left.mpr fun hexp ↦ ?_⟩
  obtain ⟨steps, s, values, exp, inv, hp, hreach, hheld, hs, hrangeOf, hentries⟩ :=
    exists_reaches_ranked (not_not.mp hexp)
  obtain ⟨-, -, -, bits, -, -, -, -, -, -, -, -, hrange, x, xs, hinputs, hexponents⟩ :=
    softmax_exponents_in_domain ofDescription_ranked hp hreach hheld hs fun _ j f _ _ ↦ representsCodes_ranked j f
  have hbits : (2 : ℚ) ^ (2 : ℤ) = 2 ^ bits := by
    rw [← hrange, hrangeOf, (Binary64.pow2_exact (by norm_num) (by norm_num)).2]
  obtain rfl := zpow_right_injective₀ two_pos (by norm_num) hbits
  exact ⟨steps, s, values, exp, inv, x, xs, hp, hreach, hheld, hs, hentries, hinputs, hexponents⟩

end FixedNet

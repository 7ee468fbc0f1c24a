import FixedNet.Proofs.Inference.Filling
import FixedNet.Proofs.Inference.Headroom
import FixedNet.Proofs.Inference.Listing

namespace FixedNet

namespace Format

variable {f : Format}

def register (f : Format) (n : ℤ) : Fixed := ⟨f.reduce n, f.frac⟩

theorem onGrid_register (n : ℤ) : (f.register n).OnGrid f := ⟨rfl, f.reduce_inRange n⟩

theorem narrow_zero_eq_register (f : Format) : Fixed.zero.narrow f = f.register 0 := by
  have hround : f.rounding.round 0 = 0 := mod_cast f.rounding.round_intCast 0
  rw [Fixed.narrow_eq, rawOf, Fixed.value_zero, zero_mul, hround, register]

theorem narrow_register_plus (hw : f.overflow = .wrap) {x : Fixed} {k : ℤ}
    (hk : ∀ m : ℤ, f.rounding.round (m + x.value * 2 ^ f.frac) = m + k) (n : ℤ) :
    ((f.register n).plus x).narrow f = f.register (n + k) := by
  have hvalue : ((f.register n).plus x).value * 2 ^ f.frac = f.reduce n + x.value * 2 ^ f.frac :=
    (f.register n).value_plus_mul_zpow x
  have hreduce : f.reduce (f.reduce n + k) = f.reduce (n + k) :=
    f.reduce_congr hw ((f.reduce_modEq hw n).add_right k)
  rw [Fixed.narrow_eq, rawOf, hvalue, hk, hreduce, register]

theorem narrow_register_plus_of_frac_eq (hw : f.overflow = .wrap) {x : Fixed} (hx : x.frac = f.frac) (n : ℤ) :
    ((f.register n).plus x).narrow f = f.register (n + x.raw) := by
  refine narrow_register_plus hw ?_ n
  intro m
  rw [← hx, x.value_mul_zpow, ← Int.cast_add, Rounding.round_intCast]

theorem narrow_register_plus_floor (hr : f.rounding = .down) (hw : f.overflow = .wrap) (x : Fixed) (n : ℤ) :
    ((f.register n).plus x).narrow f = f.register (n + ⌊x.value * 2 ^ f.frac⌋) := by
  refine narrow_register_plus hw ?_ n
  intro m
  rw [hr, Rounding.round, Int.floor_intCast_add]

end Format

section

variable {accum : Format}

def sumOfProducts (accum : Format) (terms : List (Fixed × Fixed)) : ℤ :=
  (terms.map fun p ↦ ((p.1.times p.2).narrow accum).raw).sum

theorem accumulateProducts_register (hw : accum.overflow = .wrap) (n : ℤ) (terms : List (Fixed × Fixed)) :
    accumulateProducts accum (accum.register n) terms =
      if ∀ p ∈ terms, FitsWord (p.1.raw * p.2.raw) then .ok (accum.register (n + sumOfProducts accum terms))
      else .error (.overflow .multiplication) := by
  induction terms generalizing n with
  | nil => simp [accumulateProducts, sumOfProducts]
  | cons p terms ih =>
    by_cases hp : FitsWord (p.1.raw * p.2.raw)
    · have hadd := Fixed.add_ok (Format.onGrid_register n |>.sumFits (Fixed.onGrid_narrow accum (p.1.times p.2)))
      have hnarrow := Format.narrow_register_plus_of_frac_eq hw (Fixed.narrow_frac accum (p.1.times p.2)) n
      have hstep : accumulateProducts accum (accum.register n) (p :: terms) =
          accumulateProducts accum (accum.register (n + ((p.1.times p.2).narrow accum).raw)) terms := by
        simp only [accumulateProducts, Fixed.mul_ok hp, hadd, hnarrow, bind, Except.bind]
      rw [hstep, ih]
      refine if_congr ?_ ?_ rfl
      · simp [hp]
      · simp [sumOfProducts, add_assoc]
    · have hstep : accumulateProducts accum (accum.register n) (p :: terms) = .error (.overflow .multiplication) := by
        simp only [accumulateProducts, Fixed.mul_error hp, bind, Except.bind]
      simp [hstep, hp]

theorem accumulateProducts_perm (hw : accum.overflow = .wrap) {terms terms' : List (Fixed × Fixed)}
    (h : terms.Perm terms') : accumulateProducts accum (Fixed.zero.narrow accum) terms =
      accumulateProducts accum (Fixed.zero.narrow accum) terms' := by
  have hsum : sumOfProducts accum terms = sumOfProducts accum terms' := (h.map _).sum_eq
  simp only [accum.narrow_zero_eq_register, accumulateProducts_register hw, hsum, h.mem_iff]

/-- Where the products fit, the loop of a unit ends with the residue of the sum of the narrowed products. -/
def Neuron.WrapsOnce (u : Neuron) (accum : Format) (xs : List Fixed) : Prop :=
  (∀ p ∈ xs.zip u.weights, FitsWord (p.1.raw * p.2.raw)) →
    ∃ sum, accumulateProducts accum (Fixed.zero.narrow accum) (xs.zip u.weights) = .ok sum ∧ sum.OnGrid accum ∧
      sum.raw ≡ sumOfProducts accum (xs.zip u.weights) [ZMOD 2 ^ accum.total]

theorem Neuron.wrapsOnce (hw : accum.overflow = .wrap) (u : Neuron) (xs : List Fixed) : u.WrapsOnce accum xs := by
  intro hfits
  have hsum := accumulateProducts_register hw 0 (xs.zip u.weights)
  rw [← accum.narrow_zero_eq_register, if_pos hfits, zero_add] at hsum
  exact ⟨_, hsum, Format.onGrid_register _, accum.reduce_modEq hw _⟩

-- an accumulator that saturates remembers where it has been
example :
    let f : Format := { total := 8, integer := 8, signed := true, overflow := .saturate }
    accumulateProducts f .zero [(⟨100, 0⟩, .one), (⟨100, 0⟩, .one), (⟨-100, 0⟩, .one)] = .ok ⟨27, 0⟩ ∧
      accumulateProducts f .zero [(⟨100, 0⟩, .one), (⟨-100, 0⟩, .one), (⟨100, 0⟩, .one)] = .ok ⟨100, 0⟩ := by decide

end

section

variable {α β : Type} {order : List ℕ}

def reordered (order : List ℕ) (xs : List α) : List α := order.filterMap fun i ↦ xs[i]?

theorem zip_reordered (order : List ℕ) {xs : List α} {ys : List β} (h : xs.length = ys.length) :
    (reordered order xs).zip (reordered order ys) = reordered order (xs.zip ys) := by
  induction order with
  | nil => rfl
  | cons i order ih =>
    rw [reordered, reordered, reordered] at ih
    rcases lt_or_ge i xs.length with hi | hi
    · have hi' : i < ys.length := h ▸ hi
      simp [reordered, hi, hi', ih]
    · have hi' : ys.length ≤ i := h ▸ hi
      simp [reordered, hi, hi', ih]

theorem reordered_range (xs : List α) : reordered (List.range xs.length) xs = xs := by
  induction xs with
  | nil => rfl
  | cons x xs ih =>
    rw [reordered] at ih
    simp [reordered, List.range_succ_eq_map, List.filterMap_map, ih]

theorem reordered_perm {xs : List α} (h : order.Perm (List.range xs.length)) : (reordered order xs).Perm xs := by
  have hperm := h.filterMap fun i ↦ xs[i]?
  rwa [← reordered, ← reordered, reordered_range] at hperm

end

def Neuron.reordered (order : List ℕ) (u : Neuron) : Neuron := { u with weights := FixedNet.reordered order u.weights }

theorem Neuron.sum_reordered {u : Neuron} {accum : Format} (hw : accum.overflow = .wrap) {xs : List Fixed}
    (hlength : u.weights.length = xs.length) {order : List ℕ} (horder : order.Perm (List.range xs.length)) :
    (u.reordered order).sum accum (FixedNet.reordered order xs) = u.sum accum xs := by
  have hzip := zip_reordered order hlength.symm
  have hperm : (FixedNet.reordered order (xs.zip u.weights)).Perm (xs.zip u.weights) := by
    refine reordered_perm ?_
    simpa [hlength] using horder
  have hsum := accumulateProducts_perm hw hperm
  simp only [Neuron.sum, Neuron.reordered, hzip, hsum]

theorem Kernel.run_reordered {units : List Neuron} {accum result : Format} (hw : accum.overflow = .wrap)
    {xs : List Fixed} (hlengths : ∀ u ∈ units, u.weights.length = xs.length) {order : List ℕ}
    (horder : order.Perm (List.range xs.length)) (inputFeatures : ℕ) (row : List Float) :
    (dense (units.map (Neuron.reordered order)) accum result).run inputFeatures row [reordered order xs] =
      (dense units accum result).run inputFeatures row [xs] := by
  have hsums : (units.map (Neuron.reordered order)).mapM (fun u ↦ u.sum accum (reordered order xs)) =
      units.mapM fun u ↦ u.sum accum xs := by
    rw [List.mapM_map]
    exact mapM_congr_of_mem fun u hu ↦ Neuron.sum_reordered hw (hlengths u hu) horder
  have hbiases (sums : List Fixed) :
      (sums.zip (units.map (Neuron.reordered order))).mapM (fun p ↦ sumWith p.1 p.2.bias result) =
        (sums.zip units).mapM fun p ↦ sumWith p.1 p.2.bias result := by
    rw [List.zip_map_right, List.mapM_map]
    rfl
  simp only [run, List.head?_cons, Option.getD_some, hsums, hbiases]

namespace Format

variable {f : Format}

def addFloors (f : Format) : List ℤ → List Fixed → List ℤ
  | n :: ns, x :: xs => (n + ⌊x.value * 2 ^ f.frac⌋) :: addFloors f ns xs
  | ns, _ => ns

theorem addFloors_right_comm (ns : List ℤ) (xs ys : List Fixed) :
    f.addFloors (f.addFloors ns xs) ys = f.addFloors (f.addFloors ns ys) xs := by
  induction ns generalizing xs ys with
  | nil => cases xs <;> cases ys <;> rfl
  | cons n ns ih =>
    cases xs with
    | nil => cases ys <;> rfl
    | cons x xs =>
      cases ys with
      | nil => rfl
      | cons y ys => simp [addFloors, ih, add_right_comm]

variable (hr : f.rounding = .down) (hw : f.overflow = .wrap)

include hr hw

theorem value_recordEntries_register (ns : List ℤ) (xs : List Fixed) :
    (recordEntries f (ns.map f.register) xs).value = (f.addFloors ns xs).map f.register := by
  induction ns generalizing xs with
  | nil => cases xs <;> rfl
  | cons n ns ih =>
    cases xs with
    | nil => rfl
    | cons x xs =>
      have hsum : (recordSum .accum f (f.register n) x).value = f.register (n + ⌊x.value * 2 ^ f.frac⌋) :=
        narrow_register_plus_floor hr hw x n
      exact congrArg₂ List.cons hsum (ih xs)

theorem value_foldlM_recordEntries_register (ns : List ℤ) (xss : List (List Fixed)) :
    (xss.foldlM (recordEntries f) (ns.map f.register)).value = (xss.foldl f.addFloors ns).map f.register := by
  induction xss generalizing ns with
  | nil => rfl
  | cons xs xss ih => simp [value_recordEntries_register hr hw, ih]

end Format

section

variable {accum : Format} (hr : accum.rounding = .down) (hw : accum.overflow = .wrap)

include hr hw

theorem Kernel.value_record_add (result : Format) (row : List Float) (xss : List (List Fixed)) :
    ((add accum result).record row xss).value = (xss.foldl accum.addFloors
      (List.replicate (xss.head?.getD []).length 0)).map fun n ↦ (accum.register n).narrow result := by
  have hzeros : ((xss.head?.getD []).map fun _ ↦ Fixed.zero.narrow accum) =
      (List.replicate (xss.head?.getD []).length 0).map accum.register := by
    simp [accum.narrow_zero_eq_register]
  have hsums := Format.value_foldlM_recordEntries_register hr hw (List.replicate (xss.head?.getD []).length 0) xss
  rw [← hzeros] at hsums
  simp only [record, Recorded.bind_value, Recorded.mapM_value, List.map_map]
  exact (congrArg _ hsums).trans (List.map_map ..)

theorem Kernel.value_record_add_perm (result : Format) (row : List Float) {xss xss' : List (List Fixed)}
    (h : xss.Perm xss') {width : ℕ} (hlengths : ∀ xs ∈ xss, xs.length = width) :
    ((add accum result).record row xss).value = ((add accum result).record row xss').value := by
  have hhead : (xss.head?.getD []).length = (xss'.head?.getD []).length := by
    cases xss with
    | nil => simp [h.nil_eq.symm]
    | cons xs xss =>
      obtain ⟨xs', xss', rfl⟩ := List.exists_cons_of_ne_nil (fun hnil : xss' = [] ↦ by simp [hnil] at h)
      simp [hlengths xs, hlengths xs' (h.mem_iff.mpr List.mem_cons_self)]
  have hfold (ns : List ℤ) : xss.foldl accum.addFloors ns = xss'.foldl accum.addFloors ns :=
    h.foldl_eq' (fun xs _ ys _ ns ↦ Format.addFloors_right_comm ns xs ys) ns
  rw [value_record_add hr hw, value_record_add hr hw, hhead, hfold]

end

-- one that rounds to nearest has rounded up before it subtracts, or not
example :
    let f : Format := { total := 8, integer := 8, signed := true, rounding := .nearest }
    [[⟨1, 1⟩], [⟨-1, 0⟩]].foldlM (accumulateEntries f) [.zero] = .ok [⟨0, 0⟩] ∧
      [[⟨-1, 0⟩], [⟨1, 1⟩]].foldlM (accumulateEntries f) [.zero] = .ok [⟨-1, 0⟩] := by decide

namespace Graph

variable {g : Graph} {d : Description} {t : Typing g} {steps : List (Step g.size)} {s : Step g.size}

theorem exists_read_of_dense (hd : g.Describes d) (h : g.order.mapM (g.compileStep t) = .ok steps) (hs : s ∈ steps)
    {units : List Neuron} {accum result : Format} (hk : s.kernel = .dense units accum result) :
    ∃ j, (g.layer s.index).inputs = [j] ∧ (g.Measured → ∀ u ∈ units, u.weights.length = (g.layer j).features) := by
  have hcompiles := (isStep_of_mem h hs).compiles
  have hshaped := hd.shaped s.index
  generalize hwidths : (g.layer s.index).inputs.map _ = widths at hshaped
  rw [hk] at hcompiles
  cases hcompiles with
  | dense op =>
    rw [op] at hshaped
    cases hshaped
    obtain ⟨j, hinputs, hj⟩ := List.map_eq_singleton_iff.mp hwidths
    refine ⟨j, hinputs, fun hm u hu ↦ ?_⟩
    have hlaid := laidOut_of_mem hm h hs
    rw [hk] at hlaid
    cases hlaid with
    | dense op' _ _ _ lengths =>
      rw [op] at op'
      cases op'
      exact (lengths u hu).trans hj.symm

theorem stepOutcome_add_perm (hg : Graph.ofDescription d = .ok g)
    (h : g.order.mapM (g.compileStep t) = .ok steps) {accum result : Format} (hk : s.kernel = .add accum result)
    (hr : accum.rounding = .down) (hw : accum.overflow = .wrap) {row : List Float}
    {values : Vector (List Fixed) g.size} (hreach : (g.plan steps).Reaches row s values)
    (hheld : ∀ input ∈ s.inputs, (values.get input.1).length < 2 ^ 64) {inputs : List (Fin g.size × Bool)}
    (hperm : inputs.Perm s.inputs)
    {xs xs' : List Fixed} (hxs : (g.plan steps).stepOutcome row values s = .ok xs)
    (hxs' : (g.plan steps).stepOutcome row values { s with inputs } = .ok xs') : xs' = xs := by
  have hgrid := hreach.onGrid (sound_plan hg h).result_eq
  have hinput : s.kernel.isInput = false := by rw [hk]; rfl
  have his := isStep_of_mem h hreach.mem
  have hlengths : ∀ xs ∈ (s.recordInputs values).value, xs.length = (g.layer s.index).features := by
    intro xs hxs
    rw [Step.recordInputs, Recorded.mapM_value] at hxs
    obtain ⟨input, hmem, rfl⟩ := List.mem_map.mp hxs
    rw [length_recordDecoded, length_of_reaches hg h hreach hmem (hheld input hmem)]
    rw [his.inputs_eq] at hmem
    obtain ⟨j, hj, rfl⟩ := List.mem_map.mp hmem
    have hcompiles := his.compiles
    rw [hk] at hcompiles
    cases hcompiles with
    | add op => exact (describes_of_isOk hg).features_eq_of_add op hj
  have hinputs : (s.recordInputs values).value.Perm (Step.recordInputs { s with inputs } values).value := by
    simpa [Step.recordInputs, Recorded.mapM_value] using hperm.symm.map _
  obtain ⟨-, rfl⟩ := (Plan.stepOutcome_agrees hinput row hgrid).of_ok hxs
  obtain ⟨-, rfl⟩ := (Plan.stepOutcome_agrees (p := g.plan steps) (s := { s with inputs }) hinput row hgrid).of_ok hxs'
  change (s.kernel.record row (Step.recordInputs { s with inputs } values).value).value =
    (s.kernel.record row (s.recordInputs values).value).value
  rw [hk]
  exact (Kernel.value_record_add_perm hr hw result row hinputs hlengths).symm

theorem modes_of_resolve {c : Config} {t₀ t₁ : Typing g} {passes : List OutputModes}
    (hg : Graph.ofDescription d = .ok g) (hresolve : g.resolve c t₀ = (t₁, .ok ()))
    (hpasses : g.adjustModes passes t₁ = .ok t) {i : Fin g.size} (hs : g.IsStep t i s)
    (hleaves : c.Leaves s.name .accum) {a : Format} (haccum : s.kernel.accum? = some a) :
    a.rounding = .down ∧ a.overflow = .wrap := by
  obtain ⟨ha, hrequired, -⟩ := hs.compiles.accum_eq haccum
  rw [(sameGrids_of_adjustModes hpasses).formats i .accum (by decide)] at ha
  rw [hs.name_eq] at hleaves
  obtain ⟨arriving, w, -, -, hw⟩ := exists_requiredWidth hg hleaves hresolve hrequired ha
  obtain ⟨-, -, -, hmodes⟩ := Format.fields_of_make hw
  exact hmodes

end Graph

/-- Sums in wrapping accumulators have no order. Where its products fit, a dense layer that wraps ends with the residue
of the sum of the narrowed products, in any rounding mode; its features may come in another order if the weights do. An
addition that floors and wraps gives the same for its inputs in any order, as long as it gives anything. Accumulators
that are inferred floor and wrap. -/
theorem wrapping_sums_unordered {d : Description} {g : Graph} {t : Typing g} {p : Plan}
    (hg : Graph.ofDescription d = .ok g) (hp : g.compile t = .ok p) {s : Step p.size} (hs : s ∈ p.steps) :
    (∀ units accum result, s.kernel = .dense units accum result → accum.overflow = .wrap →
      (∀ u ∈ units, ∀ xs, u.WrapsOnce accum xs) ∧
      (∃ i j, (g.layer i).name = s.name ∧ (g.layer i).inputs = [j] ∧
        (d.Sized → ∀ u ∈ units, u.weights.length = (g.layer j).features)) ∧
      ∀ xs : List Fixed, (∀ u ∈ units, u.weights.length = xs.length) →
        ∀ order : List ℕ, order.Perm (List.range xs.length) → ∀ row,
          (Kernel.dense (units.map (Neuron.reordered order)) accum result).run p.inputFeatures row
            [reordered order xs] = s.kernel.run p.inputFeatures row [xs]) ∧
    (∀ accum result, s.kernel = .add accum result → accum.rounding = .down → accum.overflow = .wrap →
      ∀ row values, p.Reaches row s values → (∀ input ∈ s.inputs, (values.get input.1).length < 2 ^ 64) →
        ∀ inputs, inputs.Perm s.inputs → ∀ xs xs', p.stepOutcome row values s = .ok xs →
          p.stepOutcome row values { s with inputs } = .ok xs' → xs' = xs) ∧
    ∀ c t₀ t₁ passes, g.resolve c t₀ = (t₁, .ok ()) → g.adjustModes passes t₁ = .ok t → c.Leaves s.name .accum →
      ∀ a, s.kernel.accum? = some a → a.rounding = .down ∧ a.overflow = .wrap := by
  obtain ⟨steps, rfl, h⟩ := Graph.exists_plan_of_compile hp
  have his := Graph.isStep_of_mem h hs
  refine ⟨?_, ?_, ?_⟩
  · intro units accum result hk hw
    obtain ⟨j, hinputs, hweights⟩ := Graph.exists_read_of_dense (Graph.describes_of_isOk hg) h hs hk
    refine ⟨fun u _ xs ↦ u.wrapsOnce hw xs, ⟨s.index, j, his.name_eq.symm, hinputs, ?_⟩, ?_⟩
    · exact fun hsize ↦ hweights (Graph.measured hg hsize)
    · intro xs hlengths order horder row
      rw [hk]
      exact Kernel.run_reordered hw hlengths horder _ row
  · intro accum result hk hr hw row values hreach hheld inputs hperm xs xs' hxs hxs'
    exact Graph.stepOutcome_add_perm hg h hk hr hw hreach hheld hperm hxs hxs'
  · intro c t₀ t₁ passes hresolve hpasses hleaves a haccum
    exact Graph.modes_of_resolve hg hresolve hpasses his hleaves haccum

def Step.floored {n : ℕ} (s : Step n) : Step n :=
  match s.kernel with
  | .add accum _ => { s with kernel := .add (accum.withRounding .down) default }
  | _ => s

def flooredPlan : Plan := { diamondPlan with steps := diamondPlan.steps.map Step.floored }

def flooredSum : Step diamondPlan.size := (diamondPlan.steps.getLast (List.cons_ne_nil _ _)).floored

def branchValues : flooredPlan.Values := #v[[⟨-1536, 10⟩], [⟨0, 10⟩], [⟨-1536, 10⟩], []]

set_option maxRecDepth 20000 in
theorem compile_floored : ∃ g t, Graph.ofDescription diamond = .ok g ∧ g.resolve {} g.untyped = (t, .ok ()) ∧
    g.compile t = .ok flooredPlan := ⟨_, _, rfl, rfl, rfl⟩

set_option maxRecDepth 20000 in
theorem reaches_flooredSum : flooredPlan.Reaches [-1.5] flooredSum branchValues :=
  ⟨diamondPlan.steps.dropLast, [], rfl, rfl⟩

/-- The unit of the affine network, with its features in reverse, and the branches, which meet in either order. -/
theorem wrapping_sums_unordered_affine :
    ((Kernel.dense [⟨[⟨-1280, 10⟩, ⟨512, 10⟩], none, ⟨256, 10⟩⟩] affineAccum (affineModes.adjust default)).run 2
        [1.5, 2] [[⟨2048, 10⟩, ⟨1536, 10⟩]] =
          affineUnit.kernel.run 2 [1.5, 2] [[⟨1536, 10⟩, ⟨2048, 10⟩]]) ∧
      flooredPlan.Reaches [-1.5] flooredSum branchValues ∧ flooredPlan.stepOutcome [-1.5] branchValues
        { flooredSum with inputs := flooredSum.inputs.reverse } = .ok [⟨-1536, 10⟩] := by
  refine ⟨?_, reaches_flooredSum, ?_⟩
  · obtain ⟨hdense, -, hmodes⟩ := wrapping_sums_unordered ofDescription_affine compile_affineAdjusted
      (s := affineUnit) reaches_affineUnit.mem
    obtain ⟨-, hw⟩ := hmodes {} _ _ [affineModes] resolve_affine adjustModes_affine
      (leavesAccumulators_empty.leaves _) affineAccum rfl
    obtain ⟨-, ⟨i, j, hname, hinputs, hweights⟩, h⟩ := hdense _ _ _ rfl hw
    obtain rfl : i = affineGraph.output := Graph.name_injective ofDescription_affine hname
    cases hinputs
    exact h [⟨1536, 10⟩, ⟨2048, 10⟩] (hweights affine_sized) [1, 0] (by decide) [1.5, 2]
  · obtain ⟨g, t, hg, -, hp⟩ := compile_floored
    obtain ⟨-, hadd, -⟩ := wrapping_sums_unordered hg hp (s := flooredSum) reaches_flooredSum.mem
    obtain ⟨xs', hxs'⟩ : ∃ xs', flooredPlan.stepOutcome [-1.5] branchValues
        { flooredSum with inputs := flooredSum.inputs.reverse } = .ok xs' := ⟨_, rfl⟩
    have hxs : flooredPlan.stepOutcome [-1.5] branchValues flooredSum = .ok [⟨-1536, 10⟩] := rfl
    have hheld : ∀ input ∈ flooredSum.inputs, (branchValues.get input.1).length < 2 ^ 64 := by decide
    rw [hxs', hadd _ _ rfl rfl rfl _ _ reaches_flooredSum hheld _ (List.reverse_perm _) _ _ hxs hxs']

end FixedNet

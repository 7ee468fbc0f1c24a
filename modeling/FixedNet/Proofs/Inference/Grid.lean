import FixedNet.Proofs.Inference.Reach
import FixedNet.Proofs.Numeric.Sample
import FixedNet.Proofs.Outcome

namespace FixedNet

/-- On the grid of a format and within its range. -/
structure Fixed.OnGrid (f : Format) (x : Fixed) : Prop where
  frac_eq : x.frac = f.frac
  inRange : f.InRange x.raw

theorem Fixed.onGrid_narrow (f : Format) (x : Fixed) : (x.narrow f).OnGrid f := ⟨rfl, x.narrow_inRange f⟩

theorem Fixed.onGrid_ofFloat {f : Format} {x : Float} {y : Fixed} (h : Fixed.ofFloat f x = .ok y) : y.OnGrid f := by
  rw [(ofFloat_eq_ok_iff.mp h).2]
  exact ⟨rfl, f.reduce_inRange _⟩

def Kernel.result : Kernel → Format
  | input result => result
  | dense _ _ result => result
  | batchNorm _ _ result => result
  | activation _ result => result
  | softmax _ _ _ result => result
  | add _ result => result
  | concatenate result => result

theorem onGrid_of_sumWith {f : Format} {x y z : Fixed} (h : Kernel.sumWith x y f = .ok z) : z.OnGrid f := by
  obtain ⟨sum, -, hz⟩ := bind_eq_ok_iff.mp h
  rw [← pure_eq_ok_iff.mp hz]
  exact Fixed.onGrid_narrow f sum

theorem onGrid_of_productWith {f : Format} {x y z : Fixed} (h : Kernel.productWith x y f = .ok z) : z.OnGrid f := by
  obtain ⟨product, -, hz⟩ := bind_eq_ok_iff.mp h
  rw [← pure_eq_ok_iff.mp hz]
  exact Fixed.onGrid_narrow f product

theorem onGrid_of_mem_map_narrow {f : Format} {xs : List Fixed} {y : Fixed} (hy : y ∈ xs.map (Fixed.narrow f)) :
    y.OnGrid f := by
  obtain ⟨x, -, rfl⟩ := List.mem_map.mp hy
  exact Fixed.onGrid_narrow f x

theorem Kernel.onGrid_of_run {k : Kernel} {inputFeatures : ℕ} {row : List Float} {inputs : List (List Fixed)}
    {p : Progress} {ys : List Fixed} (h : (k.run inputFeatures row inputs p).1 = .ok ys) :
    ∀ y ∈ ys, y.OnGrid k.result := by
  intro y hy
  cases k with
  | input result =>
    rw [fst_run_input] at h
    split at h
    · obtain ⟨x, -, hx⟩ := exists_of_mem_mapM (mapError_eq_ok_iff.mp h) hy
      exact Fixed.onGrid_ofFloat hx
    · cases h
  | dense units accum result | batchNorm channels accum result =>
    simp only [run, Work.fst_enter_bind, Work.fst_calculate_bind, Work.fst_calculate] at h
    obtain ⟨_, -, h⟩ := bind_eq_ok_iff.mp h
    obtain ⟨p, -, hp⟩ := exists_of_mem_mapM (mapError_eq_ok_iff.mp h) hy
    exact onGrid_of_sumWith hp
  | activation shape result | concatenate result =>
    simp only [run, Work.fst_enter_bind, Work.fst_pure] at h
    cases h
    exact onGrid_of_mem_map_narrow hy
  | softmax exp inv accum result =>
    simp only [run, Work.fst_enter_bind, Work.fst_calculate_bind, Work.fst_calculate] at h
    obtain ⟨_, -, h⟩ := bind_eq_ok_iff.mp h
    obtain ⟨_, -, h⟩ := bind_eq_ok_iff.mp h
    obtain ⟨p, -, hp⟩ := exists_of_mem_mapM (mapError_eq_ok_iff.mp h) hy
    exact onGrid_of_productWith hp
  | add accum result =>
    simp only [run, Work.fst_enter_bind, Work.fst_calculate_bind, Work.fst_pure] at h
    obtain ⟨_, -, h⟩ := bind_eq_ok_iff.mp h
    cases h
    exact onGrid_of_mem_map_narrow hy

namespace Plan

variable {p : Plan} {row : List Float}

/-- Every slot holds values on the grid of its format. -/
def OnGrid (formats : Fin p.size → Format) (values : p.Values) : Prop :=
  ∀ i, ∀ x ∈ values.get i, x.OnGrid (formats i)

theorem onGrid_of_stepOutcome {s : Step p.size} {values : p.Values} {xs : List Fixed}
    (h : p.stepOutcome row values s = .ok xs) : ∀ x ∈ xs, x.OnGrid s.kernel.result := by
  rw [stepOutcome_eq] at h
  obtain ⟨inputs, -, h⟩ := bind_eq_ok_iff.mp h
  exact Kernel.onGrid_of_run h

theorem onGrid_of_outcome {formats : Fin p.size → Format} (hf : ∀ s ∈ p.steps, s.kernel.result = formats s.index)
    {before after : List (Step p.size)} {values : p.Values} (hsteps : p.steps = before ++ after)
    (h : p.outcome row before p.noValues = .ok values) : OnGrid formats values := by
  refine outcome_induction (motive := fun _ values ↦ OnGrid formats values) ?_ ?_ hsteps h
  · intro i x hx
    simp [noValues, Vector.get] at hx
  · rintro before s values xs hgrid - ⟨after, hsteps⟩ hrun i x hx
    by_cases hi : i = s.index
    · subst hi
      rw [s.get_store_self] at hx
      rw [← hf s (by rw [hsteps]; simp)]
      exact onGrid_of_stepOutcome hrun x hx
    · rw [Step.get_store_ne hi] at hx
      exact hgrid i x hx

theorem Reaches.onGrid {formats : Fin p.size → Format} (hf : ∀ s ∈ p.steps, s.kernel.result = formats s.index)
    {s : Step p.size} {values : p.Values} (h : p.Reaches row s values) : OnGrid formats values := by
  obtain ⟨before, after, hsteps, hb⟩ := h
  exact onGrid_of_outcome hf hsteps hb

end Plan

end FixedNet

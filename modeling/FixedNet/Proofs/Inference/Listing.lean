import FixedNet.Conversion
import FixedNet.Proofs.Inference.Filling
import FixedNet.Proofs.Precision.Precedence
import FixedNet.Proofs.Precision.Renamed

namespace FixedNet

def Step.renamed {n n' : ℕ} (s : Step n) (σ : Fin n → Fin n') : Step n' :=
  ⟨s.name, σ s.index, s.inputs.map fun input ↦ (σ input.1, input.2), s.kernel⟩

namespace Graph

variable {g g' : Graph} {d d' : Description} {t : Typing g} {row : List Float}

theorem firstUnresolved_eq_none_iff (hd : g.Describes d) :
    g.firstUnresolved t = none ↔ ∀ i, (g.layer i).op.unresolvedSlot (t.get i).formats = none := by
  unfold firstUnresolved
  simp only [List.findSome?_eq_none_iff, Option.map_eq_none_iff, hd.perm.mem_iff, List.mem_finRange, true_implies]

theorem exists_compile_iff (hd : g.Describes d) : (∃ p, g.compile t = .ok p) ↔
    (∀ i, (g.layer i).op.unresolvedSlot (t.get i).formats = none) ∧ ∀ i, ∃ s, g.compileStep t i = .ok s := by
  rw [← firstUnresolved_eq_none_iff hd]
  unfold compile
  cases g.firstUnresolved t with
  | some unresolved => exact iff_of_false (by rintro ⟨p, ⟨⟩⟩) (by simp)
  | none =>
    constructor
    · rintro ⟨p, h⟩
      obtain ⟨steps, hsteps, -⟩ := bind_eq_ok_iff.mp h
      refine ⟨rfl, fun i ↦ ?_⟩
      have hmem : i ∈ g.order := hd.perm.mem_iff.mpr (List.mem_finRange i)
      obtain ⟨s, -, hs⟩ := exists_of_mem_forall₂ (mapM_eq_ok_iff.mp hsteps).flip hmem
      exact ⟨s, hs⟩
    · rintro ⟨-, h⟩
      obtain ⟨steps, hsteps⟩ := exists_mapM_eq_ok fun i (_ : i ∈ g.order) ↦ h i
      exact ⟨g.plan steps, bind_eq_ok_iff.mpr ⟨steps, hsteps, rfl⟩⟩

/-- The layer compiles, and on the values of its inputs it comes to the given ones. -/
def Yields (g : Graph) (t : Typing g) (row : List Float) (values : Vector (List Fixed) g.size) (i : Fin g.size)
    (xs : List Fixed) : Prop :=
  ∃ s inputs, g.compileStep t i = .ok s ∧
    s.inputs.mapM (fun input ↦ decodeInput input.2 (values.get input.1)) = .ok inputs ∧
      (s.kernel.run g.inputFeatures row inputs ⟨s.name, .quantizing, none⟩).1 = .ok xs

theorem readsInputs_yields : ReadsInputs (fun i ↦ (g.layer i).inputs) (g.Yields t row) := by
  rintro v w i xs hagree ⟨s, inputs, hs, hinputs, hrun⟩
  refine ⟨s, inputs, hs, ?_, hrun⟩
  rw [← hinputs]
  refine mapM_congr_of_mem fun input hinput ↦ ?_
  rw [(isStep_of_compileStep hs).inputs_eq] at hinput
  obtain ⟨j, hj, rfl⟩ := List.mem_map.mp hinput
  rw [hagree j hj]

theorem outcome_eq_ok_iff {order : List (Fin g.size)} {all steps : List (Step g.size)}
    (h : order.mapM (g.compileStep t) = .ok steps) {values values' : Vector (List Fixed) g.size} :
    (g.plan all).outcome row steps values = .ok values' ↔ Passes (g.Yields t row) order values values' := by
  induction order generalizing steps values with
  | nil =>
    cases pure_eq_ok_iff.mp h
    constructor
    · intro h
      cases h
      exact .nil _
    · intro h
      cases h
      rfl
  | cons i order ih =>
    rw [List.mapM_cons] at h
    obtain ⟨s, hs, h⟩ := bind_eq_ok_iff.mp h
    obtain ⟨rest, hrest, h⟩ := bind_eq_ok_iff.mp h
    cases pure_eq_ok_iff.mp h
    have hindex := (isStep_of_compileStep hs).index_eq
    subst hindex
    refine Plan.outcome_cons_eq_ok_iff.trans ⟨?_, fun hpass ↦ ?_⟩
    · rintro ⟨xs, hstep, htail⟩
      obtain ⟨inputs, hinputs, hrun⟩ := stepOutcome_eq_ok_iff.mp hstep
      exact .cons ⟨s, inputs, hs, hinputs, hrun⟩ ((ih hrest).mp htail)
    · cases hpass with
      | cons head tail =>
        obtain ⟨s', inputs, hs', hinputs, hrun⟩ := head
        cases hs.symm.trans hs'
        exact ⟨_, stepOutcome_eq_ok_iff.mpr ⟨inputs, hinputs, hrun⟩, (ih hrest).mpr tail⟩

theorem predictRow_iff_yields (hd : g.Describes d) {p : Plan} (hp : g.compile t = .ok p) {out : List Float} :
    p.predictRow row = .ok out ↔ ∃ values : Vector (List Fixed) g.size,
      (∀ i, g.Yields t row values i (values.get i)) ∧ (values.get g.output).map Fixed.toFloat = out := by
  obtain ⟨steps, rfl, hsteps⟩ := exists_plan_of_compile hp
  rw [Plan.predictRow_eq_ok_iff]
  refine exists_congr fun values ↦ and_congr_left' ?_
  exact (outcome_eq_ok_iff hsteps).trans (passes_iff readsInputs_yields hd.perm hd.in_order)

namespace Renaming

variable (r : g.Renaming g')

theorem softmaxInputBits_transport (i : Fin g.size) :
    g'.softmaxInputBits (r.transport t) (r.index i) = g.softmaxInputBits t i := by
  unfold softmaxInputBits
  rw [r.layer_eq, Layer.renamed]
  cases (g.layer i).inputs with
  | nil => rfl
  | cons j _ =>
    simp only [List.map_cons, r.layer_eq, get_transport]
    rfl

theorem compileSoftmax_transport (i : Fin g.size) :
    g'.compileSoftmax (r.transport t) (r.index i) = g.compileSoftmax t i := by
  unfold compileSoftmax
  rw [softmaxInputBits_transport, get_transport, r.layer_eq]
  rfl

theorem compileKernel_transport (i : Fin g.size) :
    g'.compileKernel (r.transport t) (r.index i) = g.compileKernel t i := by
  unfold compileKernel
  rw [compileSoftmax_transport, get_transport, r.layer_eq]
  rfl

theorem compileStep_transport {i : Fin g.size} {s : Step g.size} (h : g.compileStep t i = .ok s) :
    g'.compileStep (r.transport t) (r.index i) = .ok (s.renamed r.index) := by
  obtain ⟨k, hk, h⟩ := bind_eq_ok_iff.mp h
  cases pure_eq_ok_iff.mp h
  refine bind_eq_ok_iff.mpr ⟨k, (r.compileKernel_transport i).trans hk, pure_eq_ok_iff.mpr ?_⟩
  simp only [Step.renamed, r.layer_eq, Layer.renamed, List.map_map, Function.comp_def]

theorem exists_compile_transport (hd : g.Describes d) (hd' : g'.Describes d') (h : ∃ p, g.compile t = .ok p) :
    ∃ p', g'.compile (r.transport t) = .ok p' := by
  obtain ⟨hformats, hsteps⟩ := (exists_compile_iff hd).mp h
  refine (exists_compile_iff hd').mpr ⟨r.forall_iff.mpr fun i ↦ ?_, r.forall_iff.mpr fun i ↦ ?_⟩
  · rw [get_transport, r.layer_eq]
    exact hformats i
  · obtain ⟨s, hs⟩ := hsteps i
    exact ⟨_, r.compileStep_transport hs⟩

include r in
theorem inputFeatures_eq : g'.inputFeatures = g.inputFeatures := by
  unfold inputFeatures
  rw [r.input_eq, r.layer_eq, Layer.renamed]

theorem yields_transport {values : Vector (List Fixed) g.size} {i : Fin g.size} {xs : List Fixed}
    (h : g.Yields t row values i xs) : g'.Yields (r.transport t) row (r.transport values) (r.index i) xs := by
  obtain ⟨s, inputs, hs, hinputs, hrun⟩ := h
  refine ⟨_, inputs, r.compileStep_transport hs, ?_, by rw [r.inputFeatures_eq]; exact hrun⟩
  rw [Step.renamed, List.mapM_map]
  simp only [Function.comp_def, get_transport]
  exact hinputs

theorem predictRow_transport (hd : g.Describes d) (hd' : g'.Describes d') {p p' : Plan} (hp : g.compile t = .ok p)
    (hp' : g'.compile (r.transport t) = .ok p') {out : List Float} (h : p.predictRow row = .ok out) :
    p'.predictRow row = .ok out := by
  obtain ⟨values, hyields, rfl⟩ := (predictRow_iff_yields hd hp).mp h
  refine (predictRow_iff_yields hd' hp').mpr ⟨r.transport values, r.forall_iff.mpr fun i ↦ ?_, ?_⟩
  · rw [get_transport]
    exact r.yields_transport (hyields i)
  · rw [r.output_eq, get_transport]

end Renaming

end Graph

namespace Conversion

variable {c : Conversion} {d d' : Description} {g : Graph} {t : Typing g}

theorem exists_graph_of_build (h : c.build d = .ok ⟨g, t⟩) : Graph.ofDescription d = .ok g := by
  obtain ⟨g₁, hg, h⟩ := bind_eq_ok_iff.mp h
  split at h
  case h_1 => cases h
  case h_2 t₁ _ =>
    have hsame : g₁ = g := by
      split at h
      · cases h
        rfl
      · obtain ⟨p, -, h⟩ := bind_eq_ok_iff.mp h
        cases h
        rfl
    rw [← hsame]
    exact mapError_eq_ok_iff.mp hg

theorem build_of_perm (hperm : d.Perm d') (h : c.build d = .ok ⟨g, t⟩) :
    ∃ (g' : Graph) (r : g.Renaming g'), c.build d' = .ok ⟨g', r.transport t⟩ := by
  have hg := exists_graph_of_build h
  obtain ⟨g', hg'⟩ := Description.isOk_of_wellFormed ((Description.wellFormed_of_isOk hg).of_perm hperm)
  obtain ⟨r⟩ := Graph.exists_renaming hg hg' hperm
  refine ⟨g', r, bind_eq_ok_iff.mpr ⟨g', mapError_eq_ok_iff.mpr hg', ?_⟩⟩
  obtain ⟨g₁, hg₁, h⟩ := bind_eq_ok_iff.mp h
  cases hg.symm.trans (mapError_eq_ok_iff.mp hg₁)
  split at h
  case h_1 => cases h
  case h_2 t₁ hresolve =>
    rw [r.resolve_transport hg hg' g'.untyped hresolve]
    dsimp only
    cases hmodes : c.modes with
    | none =>
      rw [hmodes] at h
      cases h
      rfl
    | some m =>
      rw [hmodes] at h
      obtain ⟨⟨t₂, n⟩, happly, h⟩ := bind_eq_ok_iff.mp h
      cases h
      obtain ⟨n', happly'⟩ := r.apply_transport (mapError_eq_ok_iff.mp happly)
      exact bind_eq_ok_iff.mpr ⟨_, mapError_eq_ok_iff.mpr happly', rfl⟩

theorem convert_of_perm (hperm : d.Perm d') {p : Plan} (h : c.convert d = .ok p) :
    ∃ p', c.convert d' = .ok p' ∧ ∀ row out, p.predictRow row = .ok out → p'.predictRow row = .ok out := by
  obtain ⟨⟨g, t⟩, hbuild, h⟩ := bind_eq_ok_iff.mp h
  have hp := mapError_eq_ok_iff.mp h
  obtain ⟨g', r, hbuild'⟩ := build_of_perm hperm hbuild
  have hd := Graph.describes_of_isOk (exists_graph_of_build hbuild)
  have hd' := Graph.describes_of_isOk (exists_graph_of_build hbuild')
  obtain ⟨p', hp'⟩ := r.exists_compile_transport hd hd' ⟨p, hp⟩
  exact ⟨p', bind_eq_ok_iff.mpr ⟨_, hbuild', mapError_eq_ok_iff.mpr hp'⟩,
    fun row out hout ↦ r.predictRow_transport hd hd' hp hp' hout⟩

end Conversion

/-- Descriptions that list the same layers are converted with the same success. Layers of a name get the same formats
and the same table size, and rows the same predictions. -/
theorem listing_order_irrelevant (c : Conversion) {d d' : Description} (hperm : d.Perm d') :
    ((∃ built, c.build d = .ok built) ↔ ∃ built, c.build d' = .ok built) ∧
      ((∃ p, c.convert d = .ok p) ↔ ∃ p, c.convert d' = .ok p) ∧
      (∀ g t g' t', c.build d = .ok ⟨g, t⟩ → c.build d' = .ok ⟨g', t'⟩ →
        ∀ name, (g.find? name).map t.get = (g'.find? name).map t'.get) ∧
      ∀ p p', c.convert d = .ok p → c.convert d' = .ok p' →
        ∀ row out, p.predictRow row = .ok out ↔ p'.predictRow row = .ok out := by
  have hbuild {d d' : Description} (hperm : d.Perm d') (h : ∃ built, c.build d = .ok built) :
      ∃ built, c.build d' = .ok built := by
    obtain ⟨⟨g, t⟩, h⟩ := h
    obtain ⟨g', r, h'⟩ := Conversion.build_of_perm hperm h
    exact ⟨_, h'⟩
  have hconvert {d d' : Description} (hperm : d.Perm d') (h : ∃ p, c.convert d = .ok p) :
      ∃ p, c.convert d' = .ok p := by
    obtain ⟨p, h⟩ := h
    obtain ⟨p', h', -⟩ := Conversion.convert_of_perm hperm h
    exact ⟨p', h'⟩
  have hpredict {d d' : Description} (hperm : d.Perm d') {p p' : Plan} (h : c.convert d = .ok p)
      (h' : c.convert d' = .ok p') (row : List Float) (out : List Float) (hout : p.predictRow row = .ok out) :
      p'.predictRow row = .ok out := by
    obtain ⟨p₁, h₁, hsame⟩ := Conversion.convert_of_perm hperm h
    cases h'.symm.trans h₁
    exact hsame row out hout
  refine ⟨⟨hbuild hperm, hbuild hperm.symm⟩, ⟨hconvert hperm, hconvert hperm.symm⟩, ?_, fun p p' h h' row out ↦
    ⟨hpredict hperm h h' row out, hpredict hperm.symm h' h row out⟩⟩
  intro g t g' t' h h' name
  obtain ⟨g₁, r, h₁⟩ := Conversion.build_of_perm hperm h
  cases h'.symm.trans h₁
  rw [r.find?_eq (Conversion.exists_graph_of_build h) (Conversion.exists_graph_of_build h'), Option.map_map]
  exact congrArg (Option.map · (g.find? name)) (funext fun i ↦ (r.get_transport t i).symm)

def diamond : Description :=
  [⟨"data", [], .input 1⟩, ⟨"left", ["data"], .activation "relu"⟩, ⟨"right", ["data"], .activation "linear"⟩,
    ⟨"sum", ["left", "right"], .add⟩]

def evenConversion : Conversion where
  precision := { model := layeredConfig.model }
  modes := some ⟨["Add"], .nearestEven, .saturate⟩

def diamondPlan : Plan where
  size := 4
  steps := [⟨"data", 0, [], .input default⟩, ⟨"left", 1, [(0, false)], .activation .relu default⟩,
    ⟨"right", 2, [(0, false)], .activation .linear default⟩,
    ⟨"sum", 3, [(1, false), (2, false)], .add ⟨17, 7, true, .nearestEven, .wrap, by decide, by decide⟩
      (((default : Format).withRounding .nearestEven).withOverflow .saturate)⟩]
  output := 3
  inputFeatures := 1
  outputFeatures := 1

set_option maxRecDepth 20000 in
theorem convert_diamond : evenConversion.convert diamond = .ok diamondPlan ∧ diamondPlan.predictRow [1.5] = .ok [3] :=
  ⟨rfl, by decide +kernel⟩

set_option maxRecDepth 20000 in
theorem convert_reverse_diamond : ∃ p, evenConversion.convert diamond.reverse = .ok p ∧
    p.steps.map Step.name = ["data", "right", "left", "sum"] := ⟨_, rfl, rfl⟩

theorem listing_order_irrelevant_diamond : ∃ p, evenConversion.convert diamond = .ok diamondPlan ∧
    evenConversion.convert diamond.reverse = .ok p ∧ p.steps.map Step.name = ["data", "right", "left", "sum"] ∧
      diamondPlan.predictRow [1.5] = .ok [3] ∧ p.predictRow [1.5] = .ok [3] := by
  obtain ⟨p, hp, hsteps⟩ := convert_reverse_diamond
  obtain ⟨hconvert, hpredict⟩ := convert_diamond
  obtain ⟨-, -, -, hsame⟩ := listing_order_irrelevant evenConversion (List.reverse_perm diamond).symm
  exact ⟨p, hconvert, hp, hsteps, hpredict, (hsame _ p hconvert hp [1.5] [3]).mp hpredict⟩

end FixedNet

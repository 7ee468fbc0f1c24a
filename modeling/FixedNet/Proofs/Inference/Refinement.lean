import FixedNet.Proofs.Inference.Scales
import FixedNet.Proofs.Network.Shapes

namespace FixedNet

open Recorded (Agrees)

namespace Plan

variable {p : Plan} {row : List Float}

/-- What compilation leaves in a plan: the input layer comes first and reads nothing, names tell the steps apart, and
results lie on the grids of the slots. -/
structure Sound (p : Plan) (formats : Fin p.size → Format) : Prop where
  exists_head : ∃ first rest, p.steps = first :: rest ∧ first.kernel.isInput = true ∧
    ∀ s ∈ rest, s.kernel.isInput = false
  names_nodup : (p.steps.map Step.name).Nodup
  inputs_eq_nil : ∀ s ∈ p.steps, s.kernel.isInput = true → s.inputs = []
  result_eq : ∀ s ∈ p.steps, s.kernel.result = formats s.index
  compiles : ∀ s ∈ p.steps, ∃ (layer : Layer p.size) (slots : SlotMap Format), layer.Compiles slots s.kernel

variable {formats : Fin p.size → Format}

theorem mapM_ofFloat_eq_ok (result : Format) (hfinite : ∀ x ∈ row, x.isFinite = true) :
    row.mapM (Fixed.ofFloat result) = .ok (row.map (Fixed.quantized result)) := by
  rw [mapM_eq_ok_iff, List.forall₂_map_right_iff, List.forall₂_same]
  intro x hx
  rw [Fixed.quantized, Fixed.ofFloat_ok result (hfinite x hx)]
  rfl

theorem exists_mapM_ofFloat_eq_error (result : Format) {x : Float} (hx : x ∈ row) (hfinite : x.isFinite = false) :
    ∃ e, row.mapM (Fixed.ofFloat result) = .error e := by
  cases hmap : row.mapM (Fixed.ofFloat result) with
  | error e => exact ⟨e, rfl⟩
  | ok xs =>
    have hall := (List.forall₂_iff_get.mp (mapM_eq_ok_iff.mp hmap)).2
    obtain ⟨i, hi, rfl⟩ := List.getElem_of_mem hx
    have hok := hall i hi (by rw [length_of_mapM hmap]; exact hi)
    rw [List.get_eq_getElem, Fixed.ofFloat_error hfinite] at hok
    cases hok

theorem stepOutcome_input {s : Step p.size} {result : Format} (hk : s.kernel = .input result) (hinputs : s.inputs = [])
    (row : List Float) (values : p.Values) :
    p.stepOutcome row values s = .ok (row.map (Fixed.quantized result)) ∧ row.length = p.inputFeatures ∧
      (∀ x ∈ row, x.isFinite = true) ∨
    (∃ f, p.stepOutcome row values s = .error f) ∧
      (row.length ≠ p.inputFeatures ∨ ∃ x ∈ row, x.isFinite = false) := by
  have hrun : p.stepOutcome row values s = ((Kernel.input result).run p.inputFeatures row []
      ⟨s.name, .quantizing, none⟩).1 := by
    rw [stepOutcome_eq, hk, hinputs]
    rfl
  rw [hrun, Kernel.fst_run_input]
  by_cases hlength : row.length = p.inputFeatures
  · rw [if_pos hlength]
    by_cases hfinite : ∀ x ∈ row, x.isFinite = true
    · exact .inl ⟨by rw [mapM_ofFloat_eq_ok result hfinite]; rfl, hlength, hfinite⟩
    · push Not at hfinite
      obtain ⟨x, hx, hxf⟩ := hfinite
      obtain ⟨e, he⟩ := exists_mapM_ofFloat_eq_error result hx (Bool.eq_false_iff.mpr hxf)
      exact .inr ⟨⟨_, by rw [he]; rfl⟩, .inr ⟨x, hx, Bool.eq_false_iff.mpr hxf⟩⟩
  · exact .inr ⟨⟨_, if_neg hlength⟩, .inl hlength⟩

/-- A step that succeeds gives the recorded values, all of whose operations fit. -/
theorem Sound.eq_record_of_stepOutcome (h : p.Sound formats) {s : Step p.size} (hs : s ∈ p.steps) {values : p.Values}
    (hgrid : OnGrid formats values) {xs : List Fixed} (hrun : p.stepOutcome row values s = .ok xs) :
    (s.record row values).Fits ∧ xs = (s.record row values).value := by
  cases hk : s.kernel.isInput with
  | false => exact (stepOutcome_agrees hk row hgrid).of_ok hrun
  | true =>
    cases hkernel : s.kernel with
    | input result =>
      have hrecord : s.record row values = pure (row.map (Fixed.quantized result)) := by
        rw [Step.record, h.inputs_eq_nil s hs hk, hkernel]
        rfl
      rw [hrecord]
      rcases stepOutcome_input hkernel (h.inputs_eq_nil s hs hk) row values with ⟨hok, -⟩ | ⟨⟨e, he⟩, -⟩
      · rw [hok] at hrun
        cases hrun
        exact ⟨Recorded.all_pure _, rfl⟩
      · rw [he] at hrun
        cases hrun
    | dense | batchNorm | activation | softmax | add | concatenate =>
      rw [hkernel] at hk
      cases hk

theorem Sound.map_value_of_outcome (h : p.Sound formats) {before after : List (Step p.size)} {values : p.Values}
    (hsteps : p.steps = before ++ after) (hrun : p.outcome row before p.noValues = .ok values) :
    values.map (List.map Fixed.value) =
      before.foldl (fun qs s ↦ s.store qs (s.exact row qs)) (Vector.replicate p.size []) := by
  refine outcome_induction (motive := fun before values ↦ values.map (List.map Fixed.value) =
    before.foldl (fun qs s ↦ s.store qs (s.exact row qs)) (Vector.replicate p.size [])) ?_ ?_ hsteps hrun
  · rw [noValues, Vector.map_replicate]
    rfl
  · rintro before s values xs hvalues hb ⟨after, hsteps⟩ hrun
    have hgrid : OnGrid formats values := onGrid_of_outcome h.result_eq hsteps hb
    have hs : s ∈ p.steps := by rw [hsteps]; simp
    obtain ⟨hfits, rfl⟩ := h.eq_record_of_stepOutcome hs hgrid hrun
    rw [List.foldl_append, List.foldl_cons, List.foldl_nil, ← hvalues, s.map_store, s.value_record row hgrid hfits]

theorem Sound.eq_of_name_eq (h : p.Sound formats) {s s' : Step p.size} (hs : s ∈ p.steps) (hs' : s' ∈ p.steps)
    (hname : s.name = s'.name) : s = s' := List.inj_on_of_nodup_map h.names_nodup hs hs' hname

theorem Sound.eq_of_isInput (h : p.Sound formats) {s s' : Step p.size} (hs : s ∈ p.steps) (hs' : s' ∈ p.steps)
    (hk : s.kernel.isInput = true) (hk' : s'.kernel.isInput = true) : s = s' := by
  obtain ⟨head, rest, hsteps, -, hrest⟩ := h.exists_head
  have hhead {s : Step p.size} (hs : s ∈ p.steps) (hk : s.kernel.isInput = true) : s = head := by
    rw [hsteps] at hs
    refine (List.mem_cons.mp hs).resolve_right fun hmem ↦ ?_
    rw [hrest s hmem] at hk
    cases hk
  rw [hhead hs hk, hhead hs' hk']

theorem Sound.fails_at_input_iff (h : p.Sound formats) {first : Step p.size} (hfirst : first ∈ p.steps)
    (hinput : first.kernel.isInput = true) :
    (∃ fault, p.predictRow row = .error fault ∧ fault.layer = first.name) ↔
      row.length ≠ p.inputFeatures ∨ ∃ x ∈ row, x.isFinite = false := by
  obtain ⟨head, rest, hsteps, hhead, hrest⟩ := h.exists_head
  obtain rfl : first = head := h.eq_of_isInput hfirst (by rw [hsteps]; simp) hinput hhead
  obtain ⟨result, hk⟩ : ∃ result, first.kernel = .input result := by
    cases hkernel : first.kernel with
    | input result => exact ⟨result, rfl⟩
    | dense | batchNorm | activation | softmax | add | concatenate =>
      rw [hkernel] at hinput
      cases hinput
  simp only [predictRow_eq_error_iff, hsteps]
  have hnil := h.inputs_eq_nil first hfirst hinput
  rcases stepOutcome_input hk hnil row p.noValues with ⟨hok, hlength, hfinite⟩ | ⟨⟨fault, hfault⟩, hbad⟩
  · refine iff_of_false ?_ ?_
    · rintro ⟨fault, hfault, hlayer⟩
      rw [outcome_cons_of_ok hok] at hfault
      obtain ⟨before, s, after, values, hafter, -, hstep⟩ := exists_of_outcome_error hfault
      have hname := layer_of_stepOutcome hstep
      have hs : s ∈ rest := by rw [hafter]; simp
      have heq := h.eq_of_name_eq (hsteps ▸ List.mem_cons_of_mem first hs) hfirst (hname.symm.trans hlayer)
      rw [heq] at hs
      rw [hrest first hs] at hinput
      cases hinput
    · rintro (hne | ⟨x, hx, hxf⟩)
      · exact hne hlength
      · rw [hfinite x hx] at hxf
        cases hxf
  · exact iff_of_true ⟨fault, outcome_cons_of_error hfault, layer_of_stepOutcome hfault⟩ hbad

theorem Sound.exists_not_fits (h : p.Sound formats) {fault : Fault} (hfault : p.predictRow row = .error fault)
    (hlater : ∀ s ∈ p.steps, s.kernel.isInput = true → fault.layer ≠ s.name) :
    ∃ s values, p.Reaches row s values ∧ s.name = fault.layer ∧ fault.reason.IsOverflow ∧
      ∃ e ∈ (s.record row values).events, ¬ e.Fits := by
  obtain ⟨s, values, hreach, hstep⟩ := reaches_of_predictRow_error hfault
  have hname := layer_of_stepOutcome hstep
  have hk : s.kernel.isInput = false := Bool.eq_false_iff.mpr fun hk ↦ hlater s hreach.mem hk hname
  have hagrees := stepOutcome_agrees hk row (hreach.onGrid h.result_eq)
  by_cases hfits : (s.record row values).Fits
  · rw [hagrees.of_fits hfits] at hstep
    cases hstep
  · obtain ⟨e, he, hstep'⟩ := hagrees.of_not_fits hfits
    rw [hstep'] at hstep
    cases hstep
    refine ⟨s, values, hreach, hname.symm, he, ?_⟩
    have hnot := hfits
    unfold Recorded.Fits Recorded.All at hnot
    push Not at hnot
    exact hnot

theorem Sound.fails_of_not_fits (h : p.Sound formats) {s : Step p.size} {values : p.Values}
    (hreach : p.Reaches row s values) (hnot : ∃ e ∈ (s.record row values).events, ¬ e.Fits) :
    ∃ fault, p.predictRow row = .error fault ∧ fault.layer = s.name := by
  cases hstep : p.stepOutcome row values s with
  | ok xs =>
    obtain ⟨e, he, hnot⟩ := hnot
    exact absurd ((h.eq_record_of_stepOutcome hreach.mem (hreach.onGrid h.result_eq) hstep).1 e he) hnot
  | error fault =>
    obtain ⟨before, after, hsteps, hb⟩ := hreach
    refine ⟨fault, predictRow_eq_error_iff.mpr ?_, layer_of_stepOutcome hstep⟩
    rw [hsteps, outcome_append_of_ok hb, outcome_cons_of_error hstep]

end Plan

theorem Layer.Compiles.result_eq {n : ℕ} {layer : Layer n} {formats : SlotMap Format} {k : Kernel}
    (h : layer.Compiles formats k) : formats.get .result = some k.result := by
  cases h <;> assumption

theorem Layer.Compiles.isInput_iff {n : ℕ} {layer : Layer n} {formats : SlotMap Format} {k : Kernel}
    (h : layer.Compiles formats k) : k.isInput = true ↔ layer.op = .input := by
  cases h with
  | input op => exact iff_of_true rfl op
  | dense op | batchNorm op | activation op | softmax op | add op | concatenate op =>
    rw [op]
    exact iff_of_false Bool.false_ne_true (by simp)

namespace Graph

variable {g : Graph} {d : Description} {t : Typing g}

theorem map_name_steps {order : List (Fin g.size)} {steps : List (Step g.size)}
    (h : List.Forall₂ (g.IsStep t) order steps) : steps.map Step.name = order.map fun i ↦ (g.layer i).name := by
  induction h with
  | nil => rfl
  | cons hs _ ih => rw [List.map_cons, List.map_cons, hs.name_eq, ih]

def resultFormat (t : Typing g) (i : Fin g.size) : Format := ((t.get i).formats.get .result).getD default

theorem sound_of_isStep (hg : Graph.ofDescription d = .ok g) {steps : List (Step g.size)}
    (h : List.Forall₂ (g.IsStep t) g.order steps) :
    Plan.Sound ⟨g.size, steps, g.output, g.inputFeatures, g.outputFeatures⟩ (resultFormat t) ∧
      ∃ first ∈ steps, first.kernel.isInput = true ∧ first.name = (g.layer g.input).name := by
  have hd := describes_of_isOk hg
  have hinput {i : Fin g.size} {s : Step g.size} (hs : g.IsStep t i s) : s.kernel.isInput = true ↔ i = g.input := by
    rw [hs.compiles.isInput_iff, hd.op_eq_input_iff]
  have hnodup := hd.perm.nodup_iff.mpr (List.nodup_finRange g.size)
  have hnames := (List.nodup_map_iff (name_injective hg)).mpr hnodup
  rw [← map_name_steps h] at hnames
  obtain ⟨order, horder, hnotMem⟩ := hd.exists_order_eq
  rw [horder] at h
  cases h with
  | @cons _ first _ rest hfirst hrest =>
  refine ⟨⟨⟨first, rest, rfl, (hinput hfirst).mpr rfl, fun s hs ↦ ?_⟩, hnames, fun s hs hk ↦ ?_, fun s hs ↦ ?_,
    fun s hs ↦ ?_⟩, first, List.mem_cons_self, (hinput hfirst).mpr rfl, hfirst.name_eq⟩
  · obtain ⟨i, hi, his⟩ := exists_of_mem_forall₂ hrest hs
    refine Bool.eq_false_iff.mpr fun hk ↦ hnotMem ?_
    rwa [← (hinput his).mp hk]
  all_goals obtain ⟨i, -, his⟩ := exists_of_mem_forall₂ (.cons hfirst hrest) hs
  · rw [his.inputs_eq, (hd.input_iff i).mpr ((hinput his).mp hk)]
    rfl
  · rw [resultFormat, his.index_eq, his.compiles.result_eq]
    rfl
  · exact ⟨g.layer i, (t.get i).formats, his.compiles⟩

end Graph

/-- Words of 128 bits are as good as unbounded arithmetic. A row that succeeds has the rational values in every layer;
it fails at the input layer exactly if it does not fit, and elsewhere only with an operation that leaves the word. -/
theorem run_refines_exact {d : Description} {g : Graph} {t : Typing g} {p : Plan}
    (hg : Graph.ofDescription d = .ok g) (hp : g.compile t = .ok p) (row : List Float) :
    (∀ out, p.predictRow row = .ok out → ∃ values, p.outcome row p.steps p.noValues = .ok values ∧
      out = (values.get p.output).map Fixed.toFloat ∧ values.map (List.map Fixed.value) = p.exact row) ∧
    ((∃ fault, p.predictRow row = .error fault ∧ fault.layer = (g.layer g.input).name) ↔
      row.length ≠ g.inputFeatures ∨ ∃ x ∈ row, x.isFinite = false) ∧
    (∀ fault, p.predictRow row = .error fault → fault.layer ≠ (g.layer g.input).name →
      ∃ s values, p.Reaches row s values ∧ s.name = fault.layer ∧ fault.reason.IsOverflow ∧
        ∃ e ∈ (s.record row values).events, ¬ e.Fits) ∧
    (∀ s values, p.Reaches row s values → (∃ e ∈ (s.record row values).events, ¬ e.Fits) →
      ∃ fault, p.predictRow row = .error fault ∧ fault.layer = s.name) ∧
    ∀ s values, p.Reaches row s values → ∀ e ∈ (s.record row values).events, e.Scaled := by
  obtain ⟨steps, hsteps, rfl⟩ := Graph.exists_steps_of_compile hp
  obtain ⟨hsound, first, hfirst, hinput, hname⟩ := Graph.sound_of_isStep hg hsteps
  refine ⟨fun out hout ↦ ?_, ?_, fun fault hfault hlayer ↦ ?_, fun s values hreach hnot ↦ ?_,
    fun s values hreach ↦ ?_⟩
  · obtain ⟨values, hrun, rfl⟩ := Plan.predictRow_eq_ok_iff.mp hout
    exact ⟨values, hrun, rfl, hsound.map_value_of_outcome (List.append_nil _).symm hrun⟩
  · rw [← hname]
    exact hsound.fails_at_input_iff hfirst hinput
  · refine hsound.exists_not_fits hfault fun s hs hk ↦ ?_
    rw [hsound.eq_of_isInput hs hfirst hk hinput, hname]
    exact hlayer
  · exact hsound.fails_of_not_fits hreach hnot
  · obtain ⟨layer, slots, hcompiles⟩ := hsound.compiles s hreach.mem
    exact Step.scaled_record hcompiles row (hreach.onGrid hsound.result_eq)

def affineTyping : Typing affineGraph :=
  let f : Format := default
  #v[⟨{ result := some f }, 1024⟩, ⟨{ weight := some f, bias := some f, accum := some f, result := some f }, 1024⟩]

def affinePlan : Plan where
  size := 2
  steps := [⟨"data", affineGraph.input, [], .input default⟩,
    ⟨"unit", affineGraph.output, [(affineGraph.input, false)],
      .dense [⟨[⟨512, 10⟩, ⟨-1280, 10⟩], none, ⟨256, 10⟩⟩] default default⟩]
  output := affineGraph.output
  inputFeatures := 2
  outputFeatures := 1

set_option maxRecDepth 20000 in
theorem compile_affine : affineGraph.compile affineTyping = .ok affinePlan := rfl

set_option maxRecDepth 20000 in
theorem run_refines_exact_affine : Graph.ofDescription affine = .ok affineGraph ∧
    affineGraph.compile affineTyping = .ok affinePlan ∧ ∃ values,
      affinePlan.outcome [1.5, 2] affinePlan.steps affinePlan.noValues = .ok values ∧
      [-1.5] = (values.get affinePlan.output).map Fixed.toFloat ∧
      values.map (List.map Fixed.value) = affinePlan.exact [1.5, 2] :=
  ⟨ofDescription_affine, compile_affine,
    (run_refines_exact ofDescription_affine compile_affine [1.5, 2]).1 [-1.5] rfl⟩

end FixedNet

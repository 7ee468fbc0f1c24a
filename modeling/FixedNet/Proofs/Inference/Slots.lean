import FixedNet.Proofs.Inference.Arriving
import FixedNet.Proofs.Inference.Refinement

namespace FixedNet

def Op.kernelEncoding : Op → Encoding
  | dense _ _ _ kernelQuantizer _ => (kernelQuantizer.map Quantizer.encoding).getD .direct
  | _ => .direct

/-- Slots that hold codes have both of them. -/
structure Layer.RepresentsCodes {n : ℕ} (layer : Layer n) (formats : SlotMap Format) : Prop where
  result : ∀ f, layer.op.encoding = .xnor → formats.get .result = some f → f.Represents 0 ∧ f.Represents 1
  weight : ∀ f, layer.op.kernelEncoding = .xnor → formats.get .weight = some f → f.Represents 0 ∧ f.Represents 1

namespace Graph

variable {g : Graph} {d : Description}

def RepresentsCodes (t : Typing g) : Prop := ∀ i, (g.layer i).RepresentsCodes (t.get i).formats

/-- What holds of the values at every point of a run. -/
structure SlotsOf (t : Typing g) (values : Vector (List Fixed) g.size) : Prop where
  onGrid : ∀ i, ∀ x ∈ values.get i, x.OnGrid (resultFormat t i)
  codes : ∀ i, (g.layer i).op.encoding = .xnor → ∀ x ∈ values.get i, x.value = 0 ∨ x.value = 1

end Graph

theorem Op.exists_of_encoding {op : Op} (h : op.encoding = .xnor) :
    ∃ q, op = .activation (.quantized q) ∧ q.encoding = .xnor := by
  cases op with
  | activation function =>
    cases function with
    | quantized q => exact ⟨q, rfl, h⟩
    | linear | relu => cases h
  | input | dense | batchNorm | softmax | add | concatenate => cases h

theorem Quantizer.shape_of_encoding {q : Quantizer} (h : q.encoding = .xnor) : q.shape = .sign false := by
  cases q with
  | uniform u =>
    rw [encoding] at h
    split at h
    · rw [shape, if_pos ‹_›]
    · cases h
  | ternary t => cases h
  | binary b =>
    rw [encoding] at h
    split at h
    · rw [shape, ‹b.xnor = true›]
      rfl
    · cases h

namespace Graph

variable {g : Graph} {d : Description} {t : Typing g} {i : Fin g.size} {s : Step g.size} {row : List Float}
  {values : Vector (List Fixed) g.size}

theorem IsStep.code_of_mem (hs : g.IsStep t i s) (hcodes : (g.layer i).RepresentsCodes (t.get i).formats)
    (hencoding : (g.layer i).op.encoding = .xnor) {x : Fixed} (hx : x ∈ (s.record row values).value) :
    x.value = 0 ∨ x.value = 1 := by
  obtain ⟨q, hop, hq⟩ := Op.exists_of_encoding hencoding
  have hk := hs.compiles
  rw [Step.record_eq, Recorded.bind_value] at hx
  generalize s.kernel = k at hk hx
  cases hk with
  | @activation function result op hresult =>
    obtain ⟨h₀, h₁⟩ := hcodes.result result hencoding hresult
    rw [hop] at op
    cases op
    rw [Kernel.record] at hx
    simp only [Recorded.mapM_value, List.mem_map] at hx
    obtain ⟨_, ⟨y, -, rfl⟩, rfl⟩ := hx
    change ((Shape.apply q.shape y).narrow result).value = 0 ∨ ((Shape.apply q.shape y).narrow result).value = 1
    rw [Fixed.value_narrow, Quantizer.shape_of_encoding hq, Shape.apply]
    split
    · rw [Fixed.value_one, result.narrowValue_of_represents h₁]
      exact .inr rfl
    · rw [if_neg Bool.false_ne_true, Fixed.value_zero, result.narrowValue_of_represents h₀]
      exact .inl rfl
  | input op | dense op | batchNorm op | softmax op | add op | concatenate op =>
    rw [hop] at op
    cases op

theorem SlotsOf.set (h : SlotsOf t values) {xs : List Fixed} (hgrid : ∀ x ∈ xs, x.OnGrid (resultFormat t i))
    (hcodes : (g.layer i).op.encoding = .xnor → ∀ x ∈ xs, x.value = 0 ∨ x.value = 1) :
    SlotsOf t (values.set i xs i.isLt) := by
  have hget (j : Fin g.size) : (values.set i xs i.isLt).get j = if j = i then xs else values.get j := by
    split
    case isTrue hj =>
      rw [hj]
      exact Vector.getElem_set_self i.isLt
    case isFalse hj => exact Vector.getElem_set_ne i.isLt j.isLt fun heq ↦ hj (Fin.ext heq.symm)
  refine ⟨fun j ↦ ?_, fun j ↦ ?_⟩ <;> rw [hget j] <;> split
  case refine_1.isTrue hj => exact hj ▸ hgrid
  case refine_1.isFalse => exact h.onGrid j
  case refine_2.isTrue hj => exact hj ▸ hcodes
  case refine_2.isFalse => exact h.codes j

theorem slotsOf_noValues : SlotsOf t (Vector.replicate g.size []) := by
  refine ⟨fun i x hx ↦ ?_, fun i _ x hx ↦ ?_⟩ <;> simp_all [Vector.get]

theorem slotsOf_of_reaches (hg : Graph.ofDescription d = .ok g) (hcodes : RepresentsCodes t)
    {steps : List (Step g.size)} (hsteps : List.Forall₂ (g.IsStep t) g.order steps)
    (hreach : Plan.Reaches ⟨g.size, steps, g.output, g.inputFeatures, g.outputFeatures⟩ row s values) :
    SlotsOf t values := by
  obtain ⟨hsound, -⟩ := sound_of_isStep hg hsteps
  obtain ⟨before, after, hsplit, hbefore⟩ := hreach
  refine Plan.outcome_induction (motive := fun _ values ↦ SlotsOf t values) slotsOf_noValues ?_ hsplit hbefore
  rintro before s values xs hslots - ⟨after, hsplit⟩ hrun
  have hs : s ∈ steps := by
    change steps = _ at hsplit
    rw [hsplit]
    simp
  obtain ⟨i, -, his⟩ := exists_of_mem_forall₂ hsteps hs
  obtain ⟨-, rfl⟩ := hsound.eq_record_of_stepOutcome hs hslots.onGrid hrun
  have hindex := his.index_eq
  subst hindex
  refine hslots.set ?_ fun hencoding x hx ↦ his.code_of_mem (hcodes _) hencoding hx
  have hgrid := Plan.onGrid_of_stepOutcome hrun
  rwa [hsound.result_eq s hs] at hgrid

end Graph

end FixedNet

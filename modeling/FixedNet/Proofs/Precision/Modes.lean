import FixedNet.Proofs.Precision.Resolved

namespace FixedNet

structure Format.SameGrid (f f' : Format) : Prop where
  total_eq : f'.total = f.total
  integer_eq : f'.integer = f.integer
  signed_eq : f'.signed = f.signed

theorem Format.SameGrid.trans {f f' f'' : Format} (h : f.SameGrid f') (h' : f'.SameGrid f'') : f.SameGrid f'' :=
  ⟨h'.total_eq.trans h.total_eq, h'.integer_eq.trans h.integer_eq, h'.signed_eq.trans h.signed_eq⟩

theorem Fixed.OnGrid.of_sameGrid {f f' : Format} {x : Fixed} (h : x.OnGrid f') (hf : f.SameGrid f') : x.OnGrid f := by
  have hrange := h.inRange
  refine ⟨?_, ?_⟩
  · rw [h.frac_eq, Format.frac, hf.total_eq, hf.integer_eq]
    rfl
  · unfold Format.InRange Format.rawMin Format.rawMax at *
    rwa [hf.total_eq, hf.signed_eq] at hrange

namespace Graph

variable {g : Graph} {t t' t'' : Typing g}

def adjustModes (g : Graph) (passes : List OutputModes) (t : Typing g) : Except ResolveError (Typing g) :=
  passes.foldlM (fun t m ↦ (m.apply g t).map Prod.fst) t

/-- Formats that differ in the modes of results only. -/
structure SameGrids (t t' : Typing g) : Prop where
  formats : ∀ i p, p ≠ .result → (t'.get i).formats.get p = (t.get i).formats.get p
  result : ∀ i f, (t.get i).formats.get .result = some f →
    ∃ f', (t'.get i).formats.get .result = some f' ∧ f.SameGrid f'

theorem SameGrids.refl (t : Typing g) : SameGrids t t :=
  ⟨fun _ _ _ ↦ rfl, fun _ f hf ↦ ⟨f, hf, rfl, rfl, rfl⟩⟩

theorem SameGrids.trans (h : SameGrids t t') (h' : SameGrids t' t'') : SameGrids t t'' := by
  refine ⟨fun i p hp ↦ (h'.formats i p hp).trans (h.formats i p hp), fun i f hf ↦ ?_⟩
  obtain ⟨f', hf', hsame⟩ := h.result i f hf
  obtain ⟨f'', hf'', hsame'⟩ := h'.result i f' hf'
  exact ⟨f'', hf'', hsame.trans hsame'⟩

theorem get_of_apply {m : OutputModes} {n : ℕ} (h : m.apply g t = .ok (t', n)) (i : Fin g.size) :
    t'.get i = m.formatsOf g t i := by
  unfold OutputModes.apply at h
  split at h
  · cases h
  · cases h
    exact Vector.getElem_ofFn i.isLt

theorem sameGrids_of_apply {m : OutputModes} {n : ℕ} (h : m.apply g t = .ok (t', n)) : SameGrids t t' := by
  refine ⟨fun i p hp ↦ ?_, fun i f hf ↦ ?_⟩ <;> rw [get_of_apply h i, OutputModes.formatsOf] <;> split
  · cases p <;> first | contradiction | rfl
  · rfl
  · exact ⟨m.adjust f, congrArg (Option.map m.adjust) hf, rfl, rfl, rfl⟩
  · exact ⟨f, hf, rfl, rfl, rfl⟩

theorem tableSize_of_apply {m : OutputModes} {n : ℕ} (h : m.apply g t = .ok (t', n)) (i : Fin g.size) :
    (t'.get i).tableSize = (t.get i).tableSize := by
  rw [get_of_apply h i, OutputModes.formatsOf]
  split <;> rfl

theorem sameGrids_of_adjustModes {passes : List OutputModes} (h : g.adjustModes passes t = .ok t') :
    SameGrids t t' := by
  induction passes generalizing t with
  | nil =>
    cases pure_eq_ok_iff.mp h
    exact .refl _
  | cons m passes ih =>
    rw [adjustModes, List.foldlM_cons] at h
    obtain ⟨t₁, hm, h⟩ := bind_eq_ok_iff.mp h
    obtain ⟨applied, happly, rfl⟩ := map_eq_ok_iff.mp hm
    exact (sameGrids_of_apply happly).trans (ih h)

end Graph

theorem Layer.accumulatorWidth_congr {n : ℕ} {layer : Layer n} {formats formats' : SlotMap Format}
    (h : ∀ p, p ≠ .result → formats'.get p = formats.get p) (inputs : List Format) :
    layer.accumulatorWidth formats' inputs = layer.accumulatorWidth formats inputs := by
  have hoperand {p : Slot} (hp : p ≠ .result) : layer.operand formats' p = layer.operand formats p := by
    unfold operand
    rw [h p hp]
  unfold accumulatorWidth
  rw [hoperand (p := .weight) (by decide), hoperand (p := .scale) (by decide), hoperand (p := .expTable) (by decide)]

end FixedNet

import FixedNet.Precision.OutputModes
import FixedNet.Proofs.Network.Transcoding
import FixedNet.Proofs.Precision.Accumulator

namespace FixedNet

/-- No scope overrides an accumulator. -/
structure Config.LeavesAccumulators (c : Config) : Prop where
  model : c.model.overrides.get .accum = none
  layers : ∀ (name : String) (own : Scope), c.layers[name]? = some own → own.overrides.get .accum = none

theorem Config.LeavesAccumulators.leaves {c : Config} (h : c.LeavesAccumulators) (name : String) :
    c.Leaves name .accum := by
  refine ⟨h.model, ?_⟩
  rw [scope_some]
  cases hown : c.layers[name]? with
  | none => rfl
  | some own => exact h.layers name own hown

theorem mapM_congr_of_mem {ε α β : Type} {f f' : α → Except ε β} {xs : List α} (h : ∀ x ∈ xs, f x = f' x) :
    xs.mapM f = xs.mapM f' := by
  induction xs with
  | nil => rfl
  | cons x xs ih =>
    rw [List.mapM_cons, List.mapM_cons, h x List.mem_cons_self, ih fun y hy ↦ h y (List.mem_cons_of_mem x hy)]

namespace Graph

variable {g : Graph} {d : Description} {c : Config} {t t' : Typing g}

theorem arriving_congr {i : Fin g.size} (h : t.get i = t'.get i) : g.arriving t i = g.arriving t' i := by
  unfold arriving
  rw [h]

theorem resolveLayer_congr {i : Fin g.size} (h : ∀ j ∈ (g.layer i).inputs, t.get j = t'.get j) :
    g.resolveLayer c t i = g.resolveLayer c t' i := by
  unfold resolveLayer
  rw [mapM_congr_of_mem fun j hj ↦ arriving_congr (h j hj)]

theorem resolveAlong_eq_ok_iff {order : List (Fin g.size)} : g.resolveAlong c order t = (t', .ok ()) ↔
    Passes (fun t i typed ↦ g.resolveLayer c t i = .ok typed) order t t' := by
  induction order generalizing t with
  | nil =>
    constructor
    · intro h
      cases h
      exact .nil _
    · intro h
      cases h
      rfl
  | cons i order ih =>
    unfold resolveAlong
    cases hi : g.resolveLayer c t i with
    | error e =>
      refine iff_of_false (by simp) fun h ↦ ?_
      cases h with
      | cons head _ =>
        rw [hi] at head
        cases head
    | ok typed =>
      refine ih.trans ⟨fun h ↦ .cons hi h, fun h ↦ ?_⟩
      cases h with
      | cons head tail =>
        rw [hi] at head
        cases head
        exact tail

/-- Resolution finds formats that agree with the rules of all layers, if the configuration names no others. -/
theorem resolve_eq_ok_iff (hd : g.Describes d) : g.resolve c t = (t', .ok ()) ↔
    g.absentLayers c = [] ∧ ∀ i, g.resolveLayer c t' i = .ok (t'.get i) := by
  have hreads : ReadsInputs (fun i ↦ (g.layer i).inputs) fun t i typed ↦ g.resolveLayer c t i = .ok typed :=
    fun _ _ _ _ hagree h ↦ (resolveLayer_congr hagree).trans h
  rw [← passes_iff (v := t) hreads hd.perm hd.in_order, ← resolveAlong_eq_ok_iff]
  unfold resolve
  dsimp only
  cases hempty : (g.absentLayers c).isEmpty with
  | true => simp [List.isEmpty_iff.mp hempty]
  | false => simp [List.isEmpty_eq_false_iff.mp hempty]

theorem resolveLayer_of_resolve (hg : Graph.ofDescription d = .ok g) (h : g.resolve c t = (t', .ok ()))
    (i : Fin g.size) : g.resolveLayer c t' i = .ok (t'.get i) :=
  ((resolve_eq_ok_iff (describes_of_isOk hg)).mp h).2 i

/-- The width that the accumulator of a layer has to have, with the formats around it. -/
def requiredWidth (t : Typing g) (i : Fin g.size) : Except ResolveError (Option Width) := do
  let inputs ← (g.layer i).inputs.mapM (g.arriving t)
  (g.layer i).accumulatorWidth (t.get i).formats inputs

end Graph

theorem SlotMap.overridden_of_get_eq_none {overrides : SlotMap Override} {p : Slot} (h : overrides.get p = none)
    (formats : SlotMap Format) : SlotMap.overridden overrides [p] formats = .ok formats := by
  rw [overridden, override, h]
  rfl

namespace Layer

variable {n : ℕ} {layer : Layer n} {c : Config}

theorem overrideBoth_of_leaves {p : Slot} (h : c.Leaves layer.name p) (formats : SlotMap Format) :
    overrideBoth c.model c.layers[layer.name]? [p] formats = .ok formats := by
  obtain ⟨hmodel, hown⟩ := h
  change c.model.overrides.get p = none at hmodel
  rw [Config.scope_some] at hown
  rw [overrideBoth, SlotMap.overridden_of_get_eq_none hmodel]
  cases hlayer : c.layers[layer.name]? with
  | none => rfl
  | some own =>
    rw [hlayer] at hown
    exact SlotMap.overridden_of_get_eq_none hown formats

theorem toFormat_of_resolveFormats (hc : c.Leaves layer.name .accum) {inputs : List Format} {formats : SlotMap Format}
    (h : layer.resolveFormats c inputs = .ok formats) (haccum : .accum ∈ layer.op.requiredSlots) {a : Format}
    (ha : formats.get .accum = some a) :
    ∃ w, layer.accumulatorWidth formats inputs = .ok (some w) ∧ w.toFormat = .ok a := by
  unfold resolveFormats at h
  dsimp only at h
  obtain ⟨derived, -, h⟩ := bind_eq_ok_iff.mp h
  obtain ⟨operands, -, h⟩ := bind_eq_ok_iff.mp h
  rw [if_pos (List.contains_iff_mem.mpr haccum)] at h
  obtain ⟨accum, hinfer, h⟩ := bind_eq_ok_iff.mp h
  rw [overrideBoth_of_leaves hc] at h
  cases h
  unfold inferAccumulator at hinfer
  obtain ⟨width, hwidth, hinfer⟩ := bind_eq_ok_iff.mp hinfer
  change accum = some a at ha
  subst ha
  cases width with
  | none => cases hinfer
  | some w =>
    obtain ⟨f, hf, hinfer⟩ := bind_eq_ok_iff.mp hinfer
    cases pure_eq_ok_iff.mp hinfer
    exact ⟨w, hwidth, mapError_eq_ok_iff.mp hf⟩

end Layer

/-- After resolution an accumulator that no scope overrides is the format of the required width. -/
theorem Graph.exists_requiredWidth {g : Graph} {d : Description} {c : Config} {t t' : Typing g}
    (hg : Graph.ofDescription d = .ok g) {i : Fin g.size} (hc : c.Leaves (g.layer i).name .accum)
    (h : g.resolve c t = (t', .ok ())) (haccum : .accum ∈ (g.layer i).op.requiredSlots) {a : Format}
    (ha : (t'.get i).formats.get .accum = some a) : ∃ inputs w, (g.layer i).inputs.mapM (g.arriving t') = .ok inputs ∧
      (g.layer i).accumulatorWidth (t'.get i).formats inputs = .ok (some w) ∧ w.toFormat = .ok a := by
  have hlayer := resolveLayer_of_resolve hg h i
  obtain ⟨inputs, hinputs, hlayer⟩ := bind_eq_ok_iff.mp hlayer
  obtain ⟨formats, hformats, hlayer⟩ := bind_eq_ok_iff.mp hlayer
  have heq := pure_eq_ok_iff.mp hlayer
  rw [← heq] at ha ⊢
  obtain ⟨w, hw, hf⟩ := Layer.toFormat_of_resolveFormats hc hformats haccum ha
  exact ⟨inputs, w, hinputs, hw, hf⟩

end FixedNet

import FixedNet.Precision.Resolve
import FixedNet.Proofs.Inference.Layout
import FixedNet.Proofs.Inference.Refinement
import FixedNet.Proofs.Numeric.Range

namespace FixedNet

/-- Decoded inputs of the lengths that a kernel of some width pairs up, so that no value is left over. -/
inductive Kernel.Aligned (width : ℕ) : Kernel → List (List Fixed) → Prop
  | input {result : Format} : Aligned width (.input result) []
  | dense {units : List Neuron} {accum result : Format} {xs : List Fixed} (count : units.length = width)
      (lengths : ∀ u ∈ units, u.weights.length = xs.length) : Aligned width (.dense units accum result) [xs]
  | batchNorm {channels : List (Fixed × Fixed)} {accum result : Format} {xs : List Fixed}
      (count : channels.length = width) (length : xs.length = width) :
      Aligned width (.batchNorm channels accum result) [xs]
  | activation {shape : Shape} {result : Format} {xs : List Fixed} (length : xs.length = width) :
      Aligned width (.activation shape result) [xs]
  | softmax {exp : ExpTable} {inv : InvTable} {accum result : Format} {xs : List Fixed} (length : xs.length = width)
      (hexp : exp.entries.size ≠ 0) (hinv : inv.entries.size ≠ 0) : Aligned width (.softmax exp inv accum result) [xs]
  | add {accum result : Format} {xss : List (List Fixed)} (nonempty : xss ≠ [])
      (lengths : ∀ xs ∈ xss, xs.length = width) : Aligned width (.add accum result) xss
  | concatenate {result : Format} {xss : List (List Fixed)} (length : xss.flatten.length = width) :
      Aligned width (.concatenate result) xss

theorem Layer.LaidOut.aligned {n : ℕ} {layer : Layer n} {formats : SlotMap Format} {k : Kernel}
    (h : layer.LaidOut formats k) {inputs : List (List Fixed)}
    (hshape : layer.op.Shaped id (inputs.map List.length) layer.features) : k.Aligned layer.features inputs := by
  obtain ⟨width, hwidth⟩ : ∃ width, layer.features = width := ⟨_, rfl⟩
  obtain ⟨widths, hwidths⟩ : ∃ widths, inputs.map List.length = widths := ⟨_, rfl⟩
  rw [hwidth, hwidths] at hshape
  rw [hwidth]
  cases h with
  | input op =>
    rw [op] at hshape
    cases hshape
    rw [List.map_eq_nil_iff.mp hwidths]
    exact .input
  | dense op _ _ count lengths =>
    rw [op] at hshape
    cases hshape
    obtain ⟨xs, rfl, hxs⟩ := List.map_eq_singleton_iff.mp hwidths
    exact .dense (count.trans hwidth) fun u hu ↦ (lengths u hu).trans hxs.symm
  | batchNorm op _ _ count =>
    rw [op] at hshape
    cases hshape
    obtain ⟨xs, rfl, hxs⟩ := List.map_eq_singleton_iff.mp hwidths
    exact .batchNorm (count.trans hwidth) hxs
  | activation op =>
    rw [op] at hshape
    cases hshape
    obtain ⟨xs, rfl, hxs⟩ := List.map_eq_singleton_iff.mp hwidths
    exact .activation hxs
  | softmax op hexp hinv =>
    rw [op] at hshape
    cases hshape
    obtain ⟨xs, rfl, hxs⟩ := List.map_eq_singleton_iff.mp hwidths
    exact .softmax hxs hexp hinv
  | add op =>
    rw [op] at hshape
    cases hshape with
    | add several equal =>
      subst hwidths
      refine .add ?_ fun xs hxs ↦ equal _ (List.mem_map_of_mem hxs)
      rintro rfl
      simp at several
  | concatenate op =>
    rw [op] at hshape
    cases hshape
    exact .concatenate (by rw [List.length_flatten, hwidths, id])

theorem length_of_decodeInput {decode : Bool} {xs ys : List Fixed} (h : decodeInput decode xs = .ok ys) :
    ys.length = xs.length := by
  obtain ⟨-, rfl⟩ := (recordDecoded_agrees decode xs).of_ok h
  exact length_recordDecoded decode xs

theorem exists_singleton_of_forall₂ {α β : Type} {R : α → β → Prop} {xs : List α} {y : β}
    (h : List.Forall₂ R xs [y]) : ∃ x, xs = [x] ∧ R x y := by
  obtain ⟨x, _, hx, hnil, rfl⟩ := List.forall₂_cons_right_iff.mp h
  cases hnil
  exact ⟨x, rfl, hx⟩

theorem ExpTable.length_record (exp : ExpTable) (xs : List Fixed) : (exp.record xs).value.length = xs.length := by
  cases xs with
  | nil => rfl
  | cons x xs =>
    unfold record
    dsimp only
    rw [Recorded.mapM_value, List.length_map]

section

variable {count : ℕ → ℕ} (hcount : ∀ m n, m ≤ n → count n = n → count m = m)
include hcount

theorem sum_length_eq {inputs : List (List Fixed)} {widths : List ℕ}
    (h : List.Forall₂ (fun xs w ↦ count xs.length = xs.length → xs.length = w) inputs widths)
    (hsum : count (inputs.map List.length).sum = (inputs.map List.length).sum) :
    (inputs.map List.length).sum = widths.sum := by
  induction h with
  | nil => rfl
  | cons hxs _ ih =>
    rw [List.map_cons, List.sum_cons] at hsum ⊢
    rw [List.sum_cons, hxs (hcount _ _ (Nat.le_add_right _ _) hsum), ih (hcount _ _ (Nat.le_add_left _ _) hsum)]

/-- A layer gives as many values as it is wide, unless there are more than can be counted. -/
theorem Layer.Compiles.length_record {n : ℕ} {layer : Layer n} {formats : SlotMap Format} {k : Kernel}
    (hk : layer.Compiles formats k) (hchannels : k.HasChannels layer.features) {row : List Float}
    (hrow : layer.op = .input → row.length = layer.features) {widths : List ℕ}
    (hshape : layer.op.Shaped count widths layer.features) {inputs : List (List Fixed)}
    (h : List.Forall₂ (fun xs w ↦ count xs.length = xs.length → xs.length = w) inputs widths)
    (hcounted : count (k.record row inputs).value.length = (k.record row inputs).value.length) :
    (k.record row inputs).value.length = layer.features := by
  obtain ⟨width, hwidth⟩ : ∃ width, layer.features = width := ⟨_, rfl⟩
  rw [hwidth] at hshape hrow hchannels ⊢
  cases hk with
  | input op =>
    rw [Kernel.record, Recorded.pure_value, List.length_map]
    exact hrow op
  | dense =>
    simp only [Kernel.HasChannels] at hchannels
    simp only [Kernel.record, Recorded.bind_value, Recorded.mapM_value, List.length_map, List.length_zip, min_self,
      hchannels]
  | batchNorm op =>
    rw [op] at hshape
    cases hshape
    obtain ⟨xs, rfl, hxs⟩ := exists_singleton_of_forall₂ h
    simp only [Kernel.HasChannels] at hchannels
    simp only [Kernel.record, Recorded.bind_value, Recorded.mapM_value, List.length_map, List.length_zip,
      List.head?_cons, Option.getD_some, hchannels] at hcounted ⊢
    rcases Nat.le_total xs.length width with hle | hle
    · rw [Nat.min_eq_left hle, Nat.min_eq_left hle] at hcounted ⊢
      exact hxs hcounted
    · rw [Nat.min_eq_right hle, min_self]
  | activation op =>
    rw [op] at hshape
    cases hshape
    obtain ⟨xs, rfl, hxs⟩ := exists_singleton_of_forall₂ h
    simp only [Kernel.record, Recorded.mapM_value, List.length_map, List.head?_cons, Option.getD_some] at hcounted ⊢
    exact hxs hcounted
  | softmax op =>
    rw [op] at hshape
    cases hshape
    obtain ⟨xs, rfl, hxs⟩ := exists_singleton_of_forall₂ h
    simp only [Kernel.record, Recorded.bind_value, Recorded.mapM_value, List.length_map, ExpTable.length_record,
      List.head?_cons, Option.getD_some] at hcounted ⊢
    exact hxs hcounted
  | add op =>
    rw [op] at hshape
    cases hshape with
    | add several equal =>
      cases h with
      | nil => simp at several
      | cons hxs =>
        simp only [Kernel.record, Recorded.bind_value, Recorded.mapM_value, List.length_map,
          length_foldlM_recordEntries, List.head?_cons, Option.getD_some] at hcounted ⊢
        rw [hxs hcounted, equal _ List.mem_cons_self]
  | concatenate op =>
    rw [op] at hshape
    cases hshape with
    | concatenate several =>
      simp only [Kernel.record, Recorded.mapM_value, List.length_map, List.length_flatten] at hcounted ⊢
      rw [← sum_length_eq hcount h hcounted, hcounted]

end

namespace Graph

variable {g : Graph} {d : Description} {t : Typing g} {i : Fin g.size} {steps before after : List (Step g.size)}
  {s : Step g.size} {row : List Float} {values : Vector (List Fixed) g.size} {inputs : List (List Fixed)}

def plan (g : Graph) (steps : List (Step g.size)) : Plan :=
  ⟨g.size, steps, g.output, g.inputFeatures, g.outputFeatures⟩

theorem exists_plan_of_compile {p : Plan} (h : g.compile t = .ok p) :
    ∃ steps, p = g.plan steps ∧ g.order.mapM (g.compileStep t) = .ok steps := by
  unfold compile at h
  split at h
  · cases h
  · obtain ⟨steps, hsteps, h⟩ := bind_eq_ok_iff.mp h
    exact ⟨steps, (pure_eq_ok_iff.mp h).symm, hsteps⟩

theorem sound_plan (hg : Graph.ofDescription d = .ok g) (h : g.order.mapM (g.compileStep t) = .ok steps) :
    (g.plan steps).Sound (resultFormat t) := (sound_of_isStep hg (forall₂_isStep h)).1

theorem compile_of_steps (hresolved : g.firstUnresolved t = none) (h : g.order.mapM (g.compileStep t) = .ok steps) :
    g.compile t = .ok (g.plan steps) := by
  unfold compile
  rw [hresolved]
  exact bind_eq_ok_iff.mpr ⟨steps, h, rfl⟩

theorem map_index_steps (h : g.order.mapM (g.compileStep t) = .ok steps) : steps.map Step.index = g.order := by
  rw [map_eq_of_mapM h (k := id) fun _ _ hs ↦ (isStep_of_compileStep hs).index_eq, List.map_id]

theorem compileStep_of_mem (h : g.order.mapM (g.compileStep t) = .ok steps) (hs : s ∈ steps) :
    g.compileStep t s.index = .ok s := by
  obtain ⟨i, -, hi⟩ := exists_of_mem_mapM h hs
  rwa [(isStep_of_compileStep hi).index_eq]

theorem isStep_of_mem (h : g.order.mapM (g.compileStep t) = .ok steps) (hs : s ∈ steps) : g.IsStep t s.index s :=
  isStep_of_compileStep (compileStep_of_mem h hs)

theorem compileKernel_of_mem (h : g.order.mapM (g.compileStep t) = .ok steps) (hs : s ∈ steps) :
    g.compileKernel t s.index = .ok s.kernel := by
  obtain ⟨k, hk, heq⟩ := bind_eq_ok_iff.mp (compileStep_of_mem h hs)
  rwa [← congrArg Step.kernel (pure_eq_ok_iff.mp heq)]

theorem laidOut_of_mem (hm : g.Measured) (h : g.order.mapM (g.compileStep t) = .ok steps) (hs : s ∈ steps) :
    (g.layer s.index).LaidOut (t.get s.index).formats s.kernel :=
  laidOut_of_compileKernel hm (compileKernel_of_mem h hs)

theorem hasChannels_of_mem (hd : g.Describes d) (h : g.order.mapM (g.compileStep t) = .ok steps) (hs : s ∈ steps) :
    s.kernel.HasChannels (g.layer s.index).features :=
  hasChannels_of_compileKernel hd (compileKernel_of_mem h hs)

/-- A step reads the slots of steps before it. -/
theorem mem_of_mem_inputs (hd : g.Describes d) (h : g.order.mapM (g.compileStep t) = .ok steps)
    (hsplit : steps = before ++ s :: after) {input : Fin g.size × Bool} (hinput : input ∈ s.inputs) :
    input.1 ∈ before.map Step.index := by
  have hs : s ∈ steps := by simp [hsplit]
  rw [(isStep_of_mem h hs).inputs_eq] at hinput
  obtain ⟨j, hj, rfl⟩ := List.mem_map.mp hinput
  have horder := map_index_steps h
  rw [hsplit, List.map_append, List.map_cons] at horder
  exact hd.in_order _ _ _ horder.symm j hj

theorem exists_onGrid_of_outcome (hg : Graph.ofDescription d = .ok g)
    (h : g.order.mapM (g.compileStep t) = .ok steps) (hsplit : steps = before ++ after)
    (hrun : (g.plan steps).outcome row before (g.plan steps).noValues = .ok values) {i : Fin g.size}
    (hi : i ∈ before.map Step.index) :
    ∃ f, (t.get i).formats.get .result = some f ∧ ∀ x ∈ values.get i, x.OnGrid f := by
  obtain ⟨s, hs, rfl⟩ := List.mem_map.mp hi
  replace hs : s ∈ steps := hsplit ▸ List.mem_append_left after hs
  have hsound := sound_plan hg h
  refine ⟨s.kernel.result, (isStep_of_mem h hs).compiles.result_eq, fun x hx ↦ ?_⟩
  rw [hsound.result_eq s hs]
  exact Plan.onGrid_of_outcome hsound.result_eq hsplit hrun s.index x hx

/-- The layers have as many values as they are wide, unless there are more than can be counted. -/
def Counted (g : Graph) (count : ℕ → ℕ) (layers : List (Fin g.size)) (values : Vector (List Fixed) g.size) : Prop :=
  ∀ i ∈ layers, count (values.get i).length = (values.get i).length → (values.get i).length = (g.layer i).features

theorem IsStep.exists_kernel_eq_input (hs : g.IsStep t i s) (hop : (g.layer i).op = .input) :
    ∃ result, s.kernel = .input result := by
  have hk := hs.compiles
  generalize s.kernel = k at hk
  cases hk with
  | input => exact ⟨_, rfl⟩
  | dense op | batchNorm op | activation op | softmax op | add op | concatenate op =>
    rw [hop] at op
    cases op

section Counted

variable {count : ℕ → ℕ} (hcount : ∀ m n, m ≤ n → count n = n → count m = m)
  (hshaped : ∀ i, (g.layer i).op.Shaped count ((g.layer i).inputs.map fun j ↦ (g.layer j).features)
    (g.layer i).features)
include hcount hshaped

theorem IsStep.length_record (hs : g.IsStep t i s) (hchannels : s.kernel.HasChannels (g.layer i).features)
    (hrow : (g.layer i).op = .input → row.length = (g.layer i).features)
    (h : ∀ j ∈ (g.layer i).inputs, count (values.get j).length = (values.get j).length →
      (values.get j).length = (g.layer j).features)
    (hcounted : count (s.record row values).value.length = (s.record row values).value.length) :
    (s.record row values).value.length = (g.layer i).features := by
  rw [Step.record_eq, Recorded.bind_value] at hcounted ⊢
  refine hs.compiles.length_record hcount hchannels hrow (hshaped i) ?_ hcounted
  rw [Step.recordInputs, Recorded.mapM_value, hs.inputs_eq, List.map_map, List.forall₂_map_left_iff,
    List.forall₂_map_right_iff, List.forall₂_same]
  intro j hj
  rw [Function.comp_apply, length_recordDecoded]
  exact h j hj

theorem Counted.step (hvalues : g.Counted count (before.map Step.index) values) (hg : Graph.ofDescription d = .ok g)
    (h : g.order.mapM (g.compileStep t) = .ok steps) (hsplit : steps = before ++ s :: after)
    (hbefore : (g.plan steps).outcome row before (g.plan steps).noValues = .ok values) {xs : List Fixed}
    (hrun : (g.plan steps).stepOutcome row values s = .ok xs) :
    g.Counted count ((before ++ [s]).map Step.index) (s.store values xs) := by
  have hd := describes_of_isOk hg
  have hs : s ∈ steps := by simp [hsplit]
  have hsound := sound_plan hg h
  have his := isStep_of_mem h hs
  obtain ⟨-, rfl⟩ := hsound.eq_record_of_stepOutcome hs (Plan.onGrid_of_outcome hsound.result_eq hsplit hbefore) hrun
  intro i hi hcounted
  by_cases his' : i = s.index
  · subst his'
    rw [s.get_store_self] at hcounted ⊢
    refine his.length_record hcount hshaped (hasChannels_of_mem hd h hs) (fun hop ↦ ?_) (fun j hj ↦ ?_) hcounted
    · obtain ⟨result, hkernel⟩ := his.exists_kernel_eq_input hop
      have hnil := hsound.inputs_eq_nil s hs (by rw [hkernel]; rfl)
      rcases Plan.stepOutcome_input (p := g.plan steps) hkernel hnil row values with ⟨-, hlength, -⟩ | ⟨⟨e, he⟩, -⟩
      · rw [(hd.op_eq_input_iff _).mp hop]
        exact hlength
      · rw [he] at hrun
        cases hrun
    · exact hvalues j (mem_of_mem_inputs hd h hsplit (his.inputs_eq ▸ List.mem_map_of_mem hj))
  · rw [Step.get_store_ne his'] at hcounted ⊢
    exact hvalues i (by simpa [his'] using hi) hcounted

theorem counted_of_outcome (hg : Graph.ofDescription d = .ok g) (h : g.order.mapM (g.compileStep t) = .ok steps)
    (hsplit : steps = before ++ after) (hrun : (g.plan steps).outcome row before (g.plan steps).noValues = .ok values) :
    g.Counted count (before.map Step.index) values := by
  refine Plan.outcome_induction (p := g.plan steps)
    (motive := fun before values ↦ g.Counted count (before.map Step.index) values) ?_ ?_ hsplit hrun
  · intro i hi
    cases hi
  · rintro before s values xs hvalues hbefore ⟨after, hsplit⟩ hstep
    exact hvalues.step hcount hshaped hg h hsplit hbefore hstep

end Counted

/-- What a step reads is as long as the layers that it reads are wide, as long as words count it. -/
theorem length_of_reaches (hg : Graph.ofDescription d = .ok g) (h : g.order.mapM (g.compileStep t) = .ok steps)
    (hreach : (g.plan steps).Reaches row s values) {input : Fin g.size × Bool} (hinput : input ∈ s.inputs)
    (hheld : (values.get input.1).length < 2 ^ 64) : (values.get input.1).length = (g.layer input.1).features := by
  obtain ⟨before, after, hsplit, hbefore⟩ := hreach
  have hd := describes_of_isOk hg
  have hcount (m n : ℕ) (hle : m ≤ n) (hn : word64 n = n) : word64 m = m := by
    unfold word64 at *
    omega
  exact counted_of_outcome hcount hd.shaped hg h hsplit hbefore input.1 (mem_of_mem_inputs hd h hsplit hinput)
    (LayerKind.word64_of_lt hheld)

/-- The layers have as many values as they are wide, on the grids of their result formats. -/
def Filled (t : Typing g) (layers : List (Fin g.size)) (values : Vector (List Fixed) g.size) : Prop :=
  ∀ i ∈ layers, (values.get i).length = (g.layer i).features ∧
    ∃ f, (t.get i).formats.get .result = some f ∧ ∀ x ∈ values.get i, x.OnGrid f

theorem Filled.aligned (hfilled : Filled t (before.map Step.index) values) (hd : g.Describes d) (hm : g.Measured)
    (h : g.order.mapM (g.compileStep t) = .ok steps) (hsplit : steps = before ++ s :: after)
    (hinputs : s.inputs.mapM (fun input ↦ decodeInput input.2 (values.get input.1)) = .ok inputs) :
    s.kernel.Aligned (g.layer s.index).features inputs := by
  have hs : s ∈ steps := by simp [hsplit]
  refine (laidOut_of_mem hm h hs).aligned ?_
  have hwidths : inputs.map List.length = s.inputs.map fun input ↦ (g.layer input.1).features := by
    refine (map_eq_of_mapM hinputs fun _ _ ↦ length_of_decodeInput).trans ?_
    exact List.map_congr_left fun input hinput ↦ (hfilled _ (mem_of_mem_inputs hd h hsplit hinput)).1
  rw [hwidths, (isStep_of_mem h hs).inputs_eq, List.map_map]
  exact hm.shaped s.index

theorem stepOutcome_eq_ok_iff {xs : List Fixed} : (g.plan steps).stepOutcome row values s = .ok xs ↔
    ∃ inputs, s.inputs.mapM (fun input ↦ decodeInput input.2 (values.get input.1)) = .ok inputs ∧
      (s.kernel.run g.inputFeatures row inputs ⟨s.name, .quantizing, none⟩).1 = .ok xs := by
  have heq := Plan.stepOutcome_eq (p := g.plan steps) row values s
  refine (Eq.congr_left heq).trans (bind_eq_ok_iff.trans ?_)
  simp only [mapError_eq_ok_iff]
  rfl

theorem filled_of_outcome (hg : Graph.ofDescription d = .ok g) (hm : g.Measured)
    (h : g.order.mapM (g.compileStep t) = .ok steps) (hsplit : steps = before ++ after)
    (hrun : (g.plan steps).outcome row before (g.plan steps).noValues = .ok values) :
    Filled t (before.map Step.index) values := by
  have hcounted : g.Counted id (before.map Step.index) values :=
    counted_of_outcome (fun _ _ _ _ ↦ rfl) hm.shaped hg h hsplit hrun
  exact fun i hi ↦ ⟨hcounted i hi rfl, exists_onGrid_of_outcome hg h hsplit hrun hi⟩

end Graph

section

open Binary64 (nearest)

variable {f : Format} {x : Fixed}

/-- As a float a value stays what it is, or moves to another value of its format, or is rounded up from the largest
values of a wide format to one step above them. -/
theorem Fixed.OnGrid.represents_toFloat (h : x.OnGrid f) :
    x.toFloat.isFinite = true ∧ Binary64.value x.toFloat = nearest x.value ∧
      (f.Represents (Binary64.value x.toFloat) ∨
        2 ^ 53 ≤ f.rawMax ∧ Binary64.value x.toFloat = (f.rawMax + 1) * 2 ^ (-f.frac)) := by
  obtain ⟨raw, frac⟩ := x
  obtain ⟨rfl : frac = f.frac, hraw : f.InRange raw⟩ := h
  obtain ⟨hfinite, hvalue⟩ := hraw.moderate.toFloat_exact
  refine ⟨hfinite, hvalue, ?_⟩
  rw [hvalue, hraw.moderate.nearest_value]
  obtain ⟨n, hn⟩ := Binary64.exists_nearest_intCast raw
  obtain ⟨hlow, hhigh⟩ := hraw.of_nearest hn
  rcases hhigh.lt_or_eq with hlt | rfl
  · rw [hn]
    exact .inl ⟨n, ⟨hlow, by omega⟩, rfl⟩
  · refine .inr ⟨hraw.rawMax_ge_of_nearest hn, ?_⟩
    rw [hn]
    push_cast
    rfl

end

theorem Graph.filled_of_predictRow {d : Description} {g : Graph} {t : Typing g} {steps : List (Step g.size)}
    (hg : Graph.ofDescription d = .ok g) (hm : g.Measured) (hsteps : g.order.mapM (g.compileStep t) = .ok steps)
    {row out : List Float} (hout : (g.plan steps).predictRow row = .ok out) :
    ∃ xs : List Fixed, out = xs.map Fixed.toFloat ∧
      xs.length = g.outputFeatures ∧ ∃ f, (t.get g.output).formats.get .result = some f ∧ ∀ x ∈ xs, x.OnGrid f := by
  have hd := describes_of_isOk hg
  obtain ⟨values, hrun, rfl⟩ := Plan.predictRow_eq_ok_iff.mp hout
  have hfilled := filled_of_outcome hg hm hsteps (List.append_nil steps).symm hrun
  have hmem : g.output ∈ steps.map Step.index := by
    rw [map_index_steps hsteps, hd.perm.mem_iff]
    exact List.mem_finRange g.output
  exact ⟨values.get g.output, rfl, hfilled g.output hmem⟩

/-- Whatever runs, runs in shape, as long as the sizes of the network fit into words. Kernels carry all
parameters of their layers; where a run gets to, the slots of the steps before are full, the next step reads no
other slot, and nothing it pairs up is left over. A prediction is as long as the output layer is wide, and its
entries are the floats nearest to values of the result format, themselves such values but for those rounded up
to one step above the largest in a format of 54 or more bits of magnitude. -/
theorem run_fills_slots {d : Description} {g : Graph} {t : Typing g} {p : Plan} (hg : Graph.ofDescription d = .ok g)
    (hsize : d.Sized) (hp : g.compile t = .ok p) : ∃ steps, p = g.plan steps ∧
      (∀ s ∈ steps, (g.layer s.index).LaidOut (t.get s.index).formats s.kernel) ∧
      (∀ row before after values, steps = before ++ after →
        (g.plan steps).outcome row before (g.plan steps).noValues = .ok values →
          g.Filled t (before.map Step.index) values ∧ ∀ s rest, after = s :: rest →
            (∀ input ∈ s.inputs, input.1 ∈ before.map Step.index) ∧ ∀ inputs,
              s.inputs.mapM (fun input ↦ decodeInput input.2 (values.get input.1)) = .ok inputs →
                s.kernel.Aligned (g.layer s.index).features inputs) ∧
      ∀ row out, p.predictRow row = .ok out → out.length = p.outputFeatures ∧
        ∃ f, (t.get g.output).formats.get .result = some f ∧ ∀ y ∈ out, y.isFinite = true ∧
          (∃ x : Fixed, x.OnGrid f ∧ Binary64.value y = Binary64.nearest x.value) ∧
            (f.Represents (Binary64.value y) ∨
              2 ^ 53 ≤ f.rawMax ∧ Binary64.value y = (f.rawMax + 1) * 2 ^ (-f.frac)) := by
  have hd := Graph.describes_of_isOk hg
  have hm := Graph.measured hg hsize
  obtain ⟨steps, rfl, hsteps⟩ := Graph.exists_plan_of_compile hp
  refine ⟨steps, rfl, fun s hs ↦ Graph.laidOut_of_mem hm hsteps hs, ?_, ?_⟩
  · intro row before after values hsplit hrun
    have hfilled := Graph.filled_of_outcome hg hm hsteps hsplit hrun
    refine ⟨hfilled, ?_⟩
    rintro s rest rfl
    exact ⟨fun input hinput ↦ Graph.mem_of_mem_inputs hd hsteps hsplit hinput,
      fun inputs hinputs ↦ hfilled.aligned hd hm hsteps hsplit hinputs⟩
  · intro row out hout
    obtain ⟨xs, rfl, hlength, f, hf, hgrid⟩ := Graph.filled_of_predictRow hg hm hsteps hout
    refine ⟨by rw [List.length_map]; exact hlength, f, hf, fun y hy ↦ ?_⟩
    obtain ⟨x, hx, rfl⟩ := List.mem_map.mp hy
    obtain ⟨hfinite, hnearest, hvalue⟩ := (hgrid x hx).represents_toFloat
    exact ⟨hfinite, ⟨x, hgrid x hx, hnearest⟩, hvalue⟩

set_option maxRecDepth 20000 in
theorem run_fills_slots_affine : Graph.ofDescription affine = .ok affineGraph ∧
    affineGraph.compile affineTyping = .ok affinePlan ∧ affinePlan.predictRow [1.5, 2] = .ok [-1.5] ∧
      ∃ steps, affinePlan = affineGraph.plan steps ∧
        ∀ s ∈ steps, (affineGraph.layer s.index).LaidOut (affineTyping.get s.index).formats s.kernel := by
  refine ⟨ofDescription_affine, compile_affine, rfl, ?_⟩
  obtain ⟨steps, hplan, hlaid, -⟩ := run_fills_slots ofDescription_affine affine_sized compile_affine
  exact ⟨steps, hplan, hlaid⟩

def wide : Description := [⟨"x", [], .input 1⟩]

def wideFormat : Format := { total := 64, integer := 64, signed := true, overflow := .saturate }

def wideConfig : Config := Config.setFormat {} (some "x") .result wideFormat

set_option maxRecDepth 20000 in
/-- The largest value of the format is predicted as the float above it, which the format does not represent. -/
theorem prediction_not_represented : ∃ g t p y, Graph.ofDescription wide = .ok g ∧
    g.resolve wideConfig g.untyped = (t, .ok ()) ∧ g.compile t = .ok p ∧
      (t.get g.output).formats.get .result = some wideFormat ∧ p.predictRow [1e30] = .ok [y] ∧
        ¬ wideFormat.Represents (Binary64.value y) := by
  refine ⟨_, _, _, Binary64.pow2 63, rfl, rfl, rfl, rfl, rfl, ?_⟩
  rintro ⟨n, ⟨-, hn⟩, hvalue⟩
  rw [(Binary64.pow2_exact (by norm_num) (by norm_num)).2] at hvalue
  change (n : ℚ) * 2 ^ (0 : ℤ) = 2 ^ (63 : ℤ) at hvalue
  change n ≤ 2 ^ 63 - 1 at hn
  have hn' : n = 2 ^ 63 := by exact_mod_cast (mul_one (n : ℚ)).symm.trans hvalue
  omega

end FixedNet

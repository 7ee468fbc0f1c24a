import FixedNet.Proofs.Simulation.Operations

namespace FixedNet

variable {T : TensorLibrary}

def Description.ListedInOrder (d : Description) : Prop :=
  ∀ i : Fin d.length, ∀ name ∈ (d.get i).inputs, name ∈ (d.take i).map LayerDescription.name

instance (d : Description) : Decidable d.ListedInOrder := inferInstanceAs (Decidable (∀ _ : Fin d.length, _))

/-- A layer of a graph, and the layer that simulates it at the same place of the listing. -/
structure Layer.SimulatedBy {n : ℕ} (layer : Layer n) (l : SimulatedLayer T) : Prop where
  name_eq : l.name = layer.name
  inputs_eq : l.inputs = layer.inputs.map Fin.val
  features_eq : l.features = layer.features
  op : layer.op.SimulatedBy T layer.features l.op

theorem Op.SimulatedBy.isInput_iff {op : Op} {op' : SimulatedOp T} {width : ℕ} (h : op.SimulatedBy T width op') :
    op'.isInput = true ↔ op = .input := by
  cases h <;> simp [SimulatedOp.isInput]

namespace Graph

variable {g : Graph} {d : Description} {before : List (SimulatedLayer T)}

/-- The layers listed first, as they are simulated. -/
structure SimulatedUpTo (g : Graph) (before : List (SimulatedLayer T)) : Prop where
  length_le : before.length ≤ g.size
  simulated : ∀ i : Fin g.size, i.val < before.length → ∃ l, before[i.val]? = some l ∧ (g.layer i).SimulatedBy l

theorem SimulatedUpTo.exists_of_mem (h : g.SimulatedUpTo before) {l : SimulatedLayer T} (hl : l ∈ before) :
    ∃ i : Fin g.size, i.val < before.length ∧ before[i.val]? = some l ∧ (g.layer i).SimulatedBy l := by
  obtain ⟨k, hk, rfl⟩ := List.getElem_of_mem hl
  obtain ⟨l, hl, hsimulated⟩ := h.simulated ⟨k, hk.trans_le h.length_le⟩ hk
  rw [List.getElem?_eq_getElem hk] at hl
  cases hl
  exact ⟨_, hk, List.getElem?_eq_getElem hk, hsimulated⟩

theorem SimulatedUpTo.any_eq_false (h : g.SimulatedUpTo before) {p : SimulatedLayer T → Bool}
    (hp : ∀ (i : Fin g.size) l, i.val < before.length → (g.layer i).SimulatedBy l → p l ≠ true) :
    before.any p = false := by
  refine List.any_eq_false.mpr fun l hl ↦ ?_
  obtain ⟨i, hi, -, hsimulated⟩ := h.exists_of_mem hl
  exact hp i l hi hsimulated

theorem SimulatedUpTo.widths_eq (h : g.SimulatedUpTo before) {inputs : List (Fin g.size)}
    (hinputs : ∀ j ∈ inputs, j.val < before.length) :
    ((inputs.map Fin.val).map fun k ↦ (before[k]?.map SimulatedLayer.features).getD 0) =
      inputs.map fun j ↦ (g.layer j).features := by
  rw [List.map_map]
  refine List.map_congr_left fun j hj ↦ ?_
  obtain ⟨l, hl, hsimulated⟩ := h.simulated j (hinputs j hj)
  dsimp only [Function.comp_apply]
  rw [hl, Option.map_some, Option.getD_some, hsimulated.features_eq]

theorem SimulatedUpTo.append (h : g.SimulatedUpTo before) {i : Fin g.size} (hi : i.val = before.length)
    {l : SimulatedLayer T} (hl : (g.layer i).SimulatedBy l) : g.SimulatedUpTo (before ++ [l]) := by
  refine ⟨by rw [List.length_append, List.length_singleton]; omega, fun j hj ↦ ?_⟩
  rw [List.length_append, List.length_singleton] at hj
  rcases (Nat.lt_succ_iff.mp hj).lt_or_eq with hlt | heq
  · rw [List.getElem?_append_left hlt]
    exact h.simulated j hlt
  · obtain rfl : j = i := Fin.ext (heq.trans hi.symm)
    rw [heq, List.getElem?_concat_length]
    exact ⟨l, rfl, hl⟩

theorem lt_of_mem_inputs (hg : Graph.ofDescription d = .ok g) (hlisted : d.ListedInOrder) {i j : Fin g.size}
    (h : j ∈ (g.layer i).inputs) : j < i := by
  have hd := describes_of_isOk hg
  have hi : i.val < d.length := hd.size_eq ▸ i.isLt
  have hreader := hd.holds_of_getElem? (List.getElem?_eq_getElem hi)
  have hname : (g.layer j).name ∈ (d.get ⟨i, hi⟩).inputs := by
    rw [List.get_eq_getElem, ← hreader.inputs_eq]
    exact List.mem_map_of_mem h
  obtain ⟨layer, hmem, hlayer⟩ := List.mem_map.mp (hlisted ⟨i, hi⟩ _ hname)
  obtain ⟨k, hk, rfl⟩ := List.getElem_of_mem hmem
  have hki : k < i.val := hk.trans_le (List.length_take_le _ _)
  have hread : g.Holds ⟨k, hki.trans i.isLt⟩ _ := hd.holds_of_getElem? (List.getElem?_eq_getElem (hki.trans hi))
  rw [List.getElem_take] at hlayer
  obtain rfl := name_injective hg (hread.name_eq.trans hlayer)
  exact Fin.lt_def.mpr hki

theorem SimulatedUpTo.findIdx?_name (hg : Graph.ofDescription d = .ok g) (h : g.SimulatedUpTo before) {j : Fin g.size}
    (hj : j.val < before.length) : before.findIdx? (fun l ↦ l.name == (g.layer j).name) = some j.val := by
  obtain ⟨l, hl, hsimulated⟩ := h.simulated j hj
  rw [List.getElem?_eq_getElem hj] at hl
  refine List.findIdx?_eq_some_iff_getElem.mpr ⟨hj, ?_, fun k hk hname ↦ ?_⟩
  · rw [Option.some.inj hl, beq_iff_eq]
    exact hsimulated.name_eq
  · obtain ⟨l', hl', hsimulated'⟩ := h.simulated ⟨k, hk.trans j.isLt⟩ (hk.trans hj)
    rw [List.getElem?_eq_getElem (hk.trans hj)] at hl'
    rw [Option.some.inj hl', beq_iff_eq, hsimulated'.name_eq] at hname
    exact hk.ne (congrArg Fin.val (name_injective hg hname))

theorem isInput_iff (hd : g.Describes d) {i : Fin g.size} {layer : LayerDescription} (h : g.Holds i layer) :
    layer.kind.isInput = true ↔ i = g.input := by
  rw [← (LayerKind.build_eq_ok h.build_eq).eq_nil_iff, List.map_eq_nil_iff, hd.input_iff]

/-- The library reduces all parameters of the network. -/
def ReducedBy (g : Graph) (T : TensorLibrary) : Prop := ∀ i, (g.layer i).op.ReducedBy T (g.layer i).features

theorem reducedBy_of_sized (hg : Graph.ofDescription d = .ok g) (hsize : d.Sized)
    (h : ∀ m n, 0 < m → 0 < n → m * n < 2 ^ 64 → T.Reduces m n) : g.ReducedBy T := by
  intro i inFeatures weights bias kernelQuantizer biasQuantizer hop
  have hpos := (measured hg hsize).features_pos
  obtain ⟨width, hm⟩ := hsize
  obtain ⟨layer, hi, hl⟩ := (describes_of_isOk hg).holds i
  have hvolume := volume_lt hm hg hi hl
  have hbuilds := LayerKind.build_eq_ok_iff.mp hl.build_eq
  have hwidths (w : ℕ) (hw : w ∈ (g.layer i).inputs.map fun j ↦ (g.layer j).features) : 0 < w := by
    obtain ⟨j, -, rfl⟩ := List.mem_map.mp hw
    exact hpos j
  have hunits := hpos i
  generalize (g.layer i).inputs.map _ = widths, (g.layer i).features = units, layer.kind = kind
    at hbuilds hvolume hwidths hunits ⊢
  rw [hop] at hbuilds
  cases hbuilds with
  | dense =>
    have hinputs := hwidths inFeatures List.mem_cons_self
    change units * inFeatures < 2 ^ 64 at hvolume
    refine ⟨h units inFeatures hunits hinputs hvolume, h units 1 hunits one_pos ?_⟩
    exact (Nat.mul_le_mul_left units hinputs).trans_lt hvolume
  | activation hread =>
    obtain ⟨function, hactivation⟩ | hsoftmax := LayerKind.readActivation_eq_ok hread
    · cases hactivation
    · cases hsoftmax

theorem exists_simulate (hT : T.Lawful) (hreduced : g.ReducedBy T) (hg : Graph.ofDescription d = .ok g)
    (hlisted : d.ListedInOrder) (h : g.SimulatedUpTo before)
    {i : Fin g.size} (hi : i.val = before.length) {layer : LayerDescription} (hlayer : g.Holds i layer) :
    ∃ l, layer.simulate before = .ok l ∧ (g.layer i).SimulatedBy l := by
  have hd := describes_of_isOk hg
  have hearlier (j : Fin g.size) (hj : j ∈ (g.layer i).inputs) : j.val < before.length :=
    hi ▸ lt_of_mem_inputs hg hlisted hj
  have hname : (before.any fun l ↦ l.name == layer.name) = false := by
    refine h.any_eq_false fun j l hj hsimulated hname ↦ ?_
    rw [beq_iff_eq, hsimulated.name_eq, ← hlayer.name_eq] at hname
    obtain rfl := name_injective hg hname
    omega
  have hisInput : (g.layer i).inputs.isEmpty = layer.kind.isInput := by
    rw [Bool.eq_iff_iff, List.isEmpty_iff, hd.input_iff, isInput_iff hd hlayer]
  have hinput : layer.kind.isInput = true → (before.any fun l ↦ l.op.isInput) = false := by
    intro hkind
    refine h.any_eq_false fun j l hj hsimulated hop ↦ ?_
    rw [hsimulated.op.isInput_iff, hd.op_eq_input_iff] at hop
    rw [isInput_iff hd hlayer] at hkind
    omega
  obtain ⟨op, hop, hsimulated⟩ := LayerDescription.simulateOp_of_build hT hlayer.build_eq (hreduced i) hinput
  refine ⟨⟨layer.name, op, (g.layer i).inputs.map Fin.val, (g.layer i).features⟩, ?_,
    ⟨hlayer.name_eq.symm, rfl, rfl, hsimulated⟩⟩
  unfold LayerDescription.simulate
  rw [hname, if_neg Bool.false_ne_true]
  refine bind_eq_ok_iff.mpr ⟨(g.layer i).inputs.map Fin.val, ?_, ?_⟩
  · rw [← hlayer.inputs_eq, List.mapM_map]
    refine mapM_eq_ok_map fun j hj ↦ ?_
    dsimp only [Function.comp_apply]
    rw [h.findIdx?_name hg (hearlier j hj)]
  · rw [List.isEmpty_map, hisInput]
    dsimp only
    rw [h.widths_eq hearlier, if_neg (by simp)]
    exact bind_eq_ok_iff.mpr ⟨_, hop, rfl⟩

theorem SimulatedUpTo.exists_foldlM (hT : T.Lawful) (hreduced : g.ReducedBy T) (hg : Graph.ofDescription d = .ok g)
    (hlisted : d.ListedInOrder) (h : g.SimulatedUpTo before) {rest : List LayerDescription}
    (hrest : d.drop before.length = rest) :
    ∃ layers, rest.foldlM (fun before layer ↦ do return before ++ [← layer.simulate before]) before = .ok layers ∧
      g.SimulatedUpTo layers ∧ layers.length = g.size := by
  have hd := describes_of_isOk hg
  -- What was dropped is as long as what is simulated: the next layer has this length as its index.
  induction rest generalizing before with
  | nil =>
    have hle := List.drop_eq_nil_iff.mp hrest
    exact ⟨before, rfl, h, h.length_le.antisymm (hd.size_eq ▸ hle)⟩
  | cons layer rest ih =>
    have hlt : before.length < d.length := by
      by_contra hge
      rw [List.drop_eq_nil_iff.mpr (not_lt.mp hge)] at hrest
      cases hrest
    rw [List.drop_eq_getElem_cons hlt] at hrest
    obtain ⟨rfl, hafter⟩ := List.cons.inj hrest
    have hholds : g.Holds ⟨before.length, hd.size_eq ▸ hlt⟩ _ := hd.holds_of_getElem? (List.getElem?_eq_getElem hlt)
    obtain ⟨l, hl, hsimulated⟩ := exists_simulate hT hreduced hg hlisted h rfl hholds
    obtain ⟨layers, hlayers, hall⟩ := ih (h.append rfl hsimulated) (by
      rw [List.length_append, List.length_singleton]
      exact hafter)
    exact ⟨layers, bind_eq_ok_iff.mpr ⟨_, bind_eq_ok_iff.mpr ⟨l, hl, rfl⟩, hlayers⟩, hall⟩

theorem simulatedUpTo_nil : g.SimulatedUpTo ([] : List (SimulatedLayer T)) :=
  ⟨Nat.zero_le _, fun _ hi ↦ absurd hi (Nat.not_lt_zero _)⟩

theorem output_eq_last (hg : Graph.ofDescription d = .ok g) (hlisted : d.ListedInOrder) :
    g.output.val + 1 = g.size := by
  have hd := describes_of_isOk hg
  have hlast : g.size - 1 < g.size := Nat.sub_one_lt_of_lt g.output.isLt
  have houtput : ⟨g.size - 1, hlast⟩ = g.output := by
    refine (hd.output_iff _).mp fun j hj ↦ ?_
    have hlt := Fin.lt_def.mp (lt_of_mem_inputs hg hlisted hj)
    have hj := j.isLt
    dsimp only at hlt
    omega
  rw [← houtput]
  dsimp only
  omega

end Graph

/-- What is checked is simulated. If layers are listed after those they read and the network is accepted, its simulation
is accepted too, by any library whose operations succeed on matching dimensions. It has as many input features, and at
every place of the listing a layer of the same name, width and inputs that simulates the operation; its output is the
output layer, which is the last one. -/
theorem simulation_accepts_checked {d : Description} {g : Graph} (hg : Graph.ofDescription d = .ok g)
    (hlisted : d.ListedInOrder) {T : TensorLibrary} (hT : T.Lawful) (hreduced : g.ReducedBy T) :
    ∃ s, Simulation.ofDescription T d = .ok s ∧ s.inputFeatures = g.inputFeatures ∧ s.layers.length = g.size ∧
      s.output = g.output.val ∧ s.output + 1 = g.size ∧
      ∀ i : Fin g.size, ∃ l, s.layers[i.val]? = some l ∧ (g.layer i).SimulatedBy l := by
  have hd := Graph.describes_of_isOk hg
  obtain ⟨layers, hlayers, hall, hlength⟩ :=
    Graph.simulatedUpTo_nil.exists_foldlM hT hreduced hg hlisted List.drop_zero
  have hsimulated (i : Fin g.size) := hall.simulated i (i.isLt.trans_eq hlength.symm)
  have hlast := Graph.output_eq_last hg hlisted
  obtain ⟨input, hinput, hfeatures⟩ : ∃ input, layers.find? (fun l ↦ l.op.isInput) = some input ∧
      input.features = g.inputFeatures := by
    obtain ⟨l, hl, hof⟩ := hsimulated g.input
    have hop : l.op.isInput = true := hof.op.isInput_iff.mpr ((hd.op_eq_input_iff g.input).mpr rfl)
    have hsome : (layers.find? fun l ↦ l.op.isInput).isSome :=
      List.find?_isSome.mpr ⟨l, List.mem_of_getElem? hl, hop⟩
    obtain ⟨input, hinput⟩ := Option.isSome_iff_exists.mp hsome
    obtain ⟨i, -, -, hof⟩ := hall.exists_of_mem (List.mem_of_find?_eq_some hinput)
    have hop := List.find?_some hinput
    obtain rfl := (hd.op_eq_input_iff i).mp (hof.op.isInput_iff.mp hop)
    exact ⟨input, hinput, hof.features_eq⟩
  have houtput : layers.length - 1 = g.output.val := by omega
  refine ⟨⟨layers, layers.length - 1, input.features⟩, ?_, hfeatures, hlength, houtput, ?_, hsimulated⟩
  · have hne : layers ≠ [] := List.ne_nil_of_length_pos (by omega)
    refine bind_eq_ok_iff.mpr ⟨layers, hlayers, ?_⟩
    simp only [hinput, List.isEmpty_iff, hne, if_false]
    rfl
  · exact houtput ▸ hlast

def scaled : Description := [⟨"data", [], .input 2⟩,
  ⟨"unit", ["data"], .dense 1 [0.5, -1.25] none (some "quantized_bits(4,0,alpha='auto')") none⟩]

theorem scaled_sized : scaled.Sized := ⟨fun name ↦ if name = "data" then 2 else 1, by decide, by decide⟩

theorem simulation_accepts_checked_scaled : ∃ g s, Graph.ofDescription scaled = .ok g ∧
    Simulation.ofDescription .rowMajor scaled = .ok s ∧ s.inputFeatures = 2 ∧ s.output = 1 := by
  obtain ⟨g, hg, hfeatures, houtput⟩ :
      ∃ g, Graph.ofDescription scaled = .ok g ∧ g.inputFeatures = 2 ∧ g.output.val = 1 :=
    ⟨_, rfl, rfl, rfl⟩
  have hreduced := Graph.reducedBy_of_sized hg scaled_sized fun _ _ ↦ TensorLibrary.reduces_rowMajor
  obtain ⟨s, hs, hinput, -, hlast, -⟩ :=
    simulation_accepts_checked hg (by decide) TensorLibrary.lawful_rowMajor hreduced
  exact ⟨g, s, hg, hs, hinput.trans hfeatures, hlast.trans houtput⟩

end FixedNet

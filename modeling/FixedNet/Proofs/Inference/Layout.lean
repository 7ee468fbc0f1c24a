import FixedNet.Proofs.Inference.Compiled
import FixedNet.Proofs.Network.Shapes

namespace FixedNet

namespace Layer

variable {n : ℕ} {layer : Layer n} {formats : SlotMap Format}

theorem length_of_snap {parameter : String} {values : List Float} {f : Format} {xs : List Fixed}
    (h : layer.snap parameter values f = .ok xs) : xs.length = values.length := by
  obtain ⟨_, -, h⟩ := bind_eq_ok_iff.mp h
  exact length_of_mapM (mapError_eq_ok_iff.mp h)

theorem lengths_of_compileWeights {weights : List Float} {kernelQuantizer : Option Quantizer} {values : List Fixed}
    {scales : List (Option Fixed)} (h : layer.compileWeights formats weights kernelQuantizer = .ok (values, scales)) :
    values.length = weights.length ∧ scales.length = layer.features := by
  cases kernelQuantizer with
  | none =>
    obtain ⟨f, -, h⟩ := bind_eq_ok_iff.mp h
    obtain ⟨_, -, h⟩ := bind_eq_ok_iff.mp h
    obtain ⟨values, hvalues, h⟩ := bind_eq_ok_iff.mp h
    cases pure_eq_ok_iff.mp h
    exact ⟨length_of_snap hvalues, List.length_replicate⟩
  | some q =>
    obtain ⟨f, tensor, codes, -, htensor, hcodes, hvalues, hscales⟩ := exists_of_compileWeights h
    obtain ⟨hlength, hchannels⟩ := Quantizer.lengths_of_projectTensor htensor
    have hcount := (length_of_snap hcodes).trans hlength
    refine ⟨?_, ?_⟩
    · rcases hvalues with ⟨-, rfl⟩ | ⟨-, hvalues⟩
      · exact hcount
      · rw [length_of_mapM hvalues, hcount]
    · rcases hscales with rfl | ⟨f', snapped, -, hsnapped, rfl⟩
      · exact List.length_replicate
      · rw [List.length_map, length_of_snap hsnapped, hchannels]

theorem length_of_compileBias {bias : List Float} {biasQuantizer : Option Quantizer} {values : List Fixed}
    (h : layer.compileBias formats bias biasQuantizer = .ok values) : values.length = bias.length := by
  obtain ⟨f, -, h⟩ := bind_eq_ok_iff.mp h
  obtain ⟨_, -, h⟩ := bind_eq_ok_iff.mp h
  cases biasQuantizer with
  | none => exact length_of_snap h
  | some q =>
    obtain ⟨tensor, htensor, h⟩ := bind_eq_ok_iff.mp h
    rw [length_of_snap h, CodedTensor.values, List.length_mapIdx]
    exact (Quantizer.lengths_of_projectTensor (mapError_eq_ok_iff.mp htensor)).1

theorem map_assembleUnits {weights : List (List Fixed)} {scales : List (Option Fixed)} {bias : List Fixed}
    (hscales : scales.length = weights.length) (hbias : bias.length = weights.length) :
    (assembleUnits weights scales bias).map Neuron.weights = weights ∧
      (assembleUnits weights scales bias).map Neuron.scale = scales ∧
      (assembleUnits weights scales bias).map Neuron.bias = bias := by
  induction weights generalizing scales bias with
  | nil =>
    rw [List.length_nil, List.length_eq_zero_iff] at hscales hbias
    subst hscales hbias
    exact ⟨rfl, rfl, rfl⟩
  | cons w weights ih =>
    obtain ⟨s, scales, rfl⟩ := List.exists_cons_of_length_eq_add_one hscales
    obtain ⟨b, bias, rfl⟩ := List.exists_cons_of_length_eq_add_one hbias
    obtain ⟨hw, hs, hb⟩ := ih (Nat.succ.inj hscales) (Nat.succ.inj hbias)
    simp only [assembleUnits, List.map_cons, hw, hs, hb, and_self]

theorem map_assembled {weights bias : List Float} {kernelQuantizer biasQuantizer : Option Quantizer}
    {values biases : List Fixed} {scales : List (Option Fixed)}
    (hweights : layer.compileWeights formats weights kernelQuantizer = .ok (values, scales))
    (hbias : layer.compileBias formats bias biasQuantizer = .ok biases) (hlength : bias.length = layer.features)
    (inFeatures : ℕ) : ∃ units,
      assembleUnits (Quantizer.stretches inFeatures layer.features values) scales biases = units ∧
      units.length = layer.features ∧
      units.map Neuron.weights = Quantizer.stretches inFeatures layer.features values ∧
      units.map Neuron.scale = scales ∧ units.map Neuron.bias = biases := by
  have hscales := (lengths_of_compileWeights hweights).2
  have hbiases := (length_of_compileBias hbias).trans hlength
  have hcut := Quantizer.length_stretches inFeatures layer.features values
  obtain ⟨hw, hs, hb⟩ := map_assembleUnits (hscales.trans hcut.symm) (hbiases.trans hcut.symm)
  refine ⟨_, rfl, ?_, hw, hs, hb⟩
  rw [← List.length_map (f := Neuron.weights), hw, hcut]

/-- A kernel that carries all parameters of its layer, in lists of the lengths that the layer has. -/
inductive LaidOut (layer : Layer n) (formats : SlotMap Format) : Kernel → Prop
  | input {result : Format} (op : layer.op = .input) : LaidOut layer formats (.input result)
  | dense {inFeatures : ℕ} {weights bias : List Float} {kernelQuantizer biasQuantizer : Option Quantizer}
      {values biases : List Fixed} {scales : List (Option Fixed)} {units : List Neuron} {accum result : Format}
      (op : layer.op = .dense inFeatures weights bias kernelQuantizer biasQuantizer)
      (hweights : layer.compileWeights formats weights kernelQuantizer = .ok (values, scales))
      (hbias : layer.compileBias formats bias biasQuantizer = .ok biases) (count : units.length = layer.features)
      (lengths : ∀ u ∈ units, u.weights.length = inFeatures) (all_weights : units.flatMap Neuron.weights = values)
      (all_scales : units.map Neuron.scale = scales) (all_biases : units.map Neuron.bias = biases) :
      LaidOut layer formats (.dense units accum result)
  | batchNorm {gains shifts : List Float} {channels : List (Fixed × Fixed)} {scale bias accum result : Format}
      (op : layer.op = .batchNorm gains shifts) (hscale : layer.snap "scale" gains scale = .ok (channels.map Prod.fst))
      (hshift : layer.snap "shift" shifts bias = .ok (channels.map Prod.snd))
      (count : channels.length = layer.features) :
      LaidOut layer formats (.batchNorm channels accum result)
  | activation {function : ActivationFunction} {result : Format} (op : layer.op = .activation function) :
      LaidOut layer formats (.activation function.shape result)
  | softmax {exp : ExpTable} {inv : InvTable} {accum result : Format} (op : layer.op = .softmax)
      (hexp : exp.entries.size ≠ 0) (hinv : inv.entries.size ≠ 0) :
      LaidOut layer formats (.softmax exp inv accum result)
  | add {accum result : Format} (op : layer.op = .add) : LaidOut layer formats (.add accum result)
  | concatenate {result : Format} (op : layer.op = .concatenate) : LaidOut layer formats (.concatenate result)

end Layer

theorem ExpTable.size_of_make {size : ℕ} {bits : ℤ} {f : Format} {exp : ExpTable}
    (h : ExpTable.make size bits f = .ok exp) : exp.entries.size = size := by
  obtain ⟨entries, hentries, h⟩ := bind_eq_ok_iff.mp h
  cases pure_eq_ok_iff.mp h
  exact size_of_tableEntries hentries

theorem InvTable.size_of_make {size : ℕ} {limit : Float} {f : Format} {inv : InvTable}
    (h : InvTable.make size limit f = .ok inv) : inv.entries.size = size := by
  obtain ⟨entries, hentries, h⟩ := bind_eq_ok_iff.mp h
  cases pure_eq_ok_iff.mp h
  exact size_of_tableEntries hentries

theorem Layer.laidOut_assembleUnits {n : ℕ} {layer : Layer n} {formats : SlotMap Format} {inFeatures : ℕ}
    {weights bias : List Float} {kernelQuantizer biasQuantizer : Option Quantizer} {values biases : List Fixed}
    {scales : List (Option Fixed)} (op : layer.op = .dense inFeatures weights bias kernelQuantizer biasQuantizer)
    (hweights : layer.compileWeights formats weights kernelQuantizer = .ok (values, scales))
    (hbias : layer.compileBias formats bias biasQuantizer = .ok biases)
    (hlength : weights.length = layer.features * inFeatures) (hlength' : bias.length = layer.features)
    (accum result : Format) : layer.LaidOut formats
      (.dense (assembleUnits (Quantizer.stretches inFeatures layer.features values) scales biases) accum result) := by
  obtain ⟨hcount, -⟩ := lengths_of_compileWeights hweights
  obtain ⟨units, hunits, hlengths, hw, hs, hb⟩ := map_assembled hweights hbias hlength' inFeatures
  rw [hunits]
  refine .dense op hweights hbias hlengths ?_ ?_ hs hb
  · intro u hu
    refine Quantizer.length_of_mem_stretches (hcount.trans hlength).ge ?_
    rw [← hw]
    exact List.mem_map_of_mem hu
  · rw [List.flatMap_def, hw, Quantizer.flatten_stretches, ← hlength, ← hcount, List.take_length]

/-- A kernel has a unit or a channel for each of the numbers that its layer gives. -/
def Kernel.HasChannels (width : ℕ) : Kernel → Prop
  | dense units _ _ => units.length = width
  | batchNorm channels _ _ => channels.length = width
  | input _ | activation _ _ | softmax _ _ _ _ | add _ _ | concatenate _ => True

theorem Graph.hasChannels_of_compileKernel {g : Graph} {d : Description} {t : Typing g} {i : Fin g.size} {k : Kernel}
    (hd : g.Describes d) (h : g.compileKernel t i = .ok k) : k.HasChannels (g.layer i).features := by
  cases assembles_of_compileKernel h with
  | @dense inFeatures _ _ _ _ _ _ _ _ _ op hweights hbias =>
    have hlength := (op ▸ hd.shaped i).lengths_of_dense.2
    obtain ⟨units, hunits, hlengths, -⟩ := Layer.map_assembled hweights hbias hlength inFeatures
    rw [hunits]
    exact hlengths
  | batchNorm op _ hgains _ hshifts =>
    have hlengths := (op ▸ hd.shaped i).lengths_of_batchNorm
    rw [← Layer.length_of_snap hgains, ← Layer.length_of_snap hshifts] at hlengths
    rw [Kernel.HasChannels, List.length_zip, hlengths.1, hlengths.2, min_self]
  | input | activation | softmax | add | concatenate => trivial

theorem Graph.laidOut_of_compileKernel {g : Graph} {t : Typing g} {i : Fin g.size} {k : Kernel}
    (hm : g.Measured) (h : g.compileKernel t i = .ok k) : (g.layer i).LaidOut (t.get i).formats k := by
  cases assembles_of_compileKernel h with
  | input op => exact .input op
  | dense op hweights hbias =>
    obtain ⟨hlength, hlength'⟩ := (op ▸ hm.shaped i).lengths_of_dense
    exact Layer.laidOut_assembleUnits op hweights hbias hlength hlength' _ _
  | batchNorm op _ hgains _ hshifts =>
    have hlengths := (op ▸ hm.shaped i).lengths_of_batchNorm
    rw [← Layer.length_of_snap hgains, ← Layer.length_of_snap hshifts] at hlengths
    have hsame := hlengths.1.trans hlengths.2.symm
    refine .batchNorm op (hgains.trans (congrArg Except.ok ?_)) (hshifts.trans (congrArg Except.ok ?_)) ?_
    · rw [List.map_fst_zip hsame.le]
    · rw [List.map_snd_zip hsame.ge]
    · rw [List.length_zip, hsame, min_self, hlengths.2]
  | activation op => exact .activation op
  | softmax op hsize _ _ hexp _ hinv =>
    refine .softmax op ?_ ?_
    · rwa [ExpTable.size_of_make hexp]
    · rwa [InvTable.size_of_make hinv]
  | add op => exact .add op
  | concatenate op => exact .concatenate op

end FixedNet

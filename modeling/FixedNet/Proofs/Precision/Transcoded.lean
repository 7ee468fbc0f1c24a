import FixedNet.Proofs.Network.Transcoding
import FixedNet.Proofs.Precision.Afresh

namespace FixedNet

def Format.signs (coded : Bool) : Format := if coded then .bit else .trit

theorem Format.decoded_signs (coded : Bool) :
    (signs coded).decoded (Quantizer.signs coded).encoding = .trit := by cases coded <;> rfl

/-- Formats of layers that stand to each other in this way: all the same but for the slot of the signs. -/
inductive Op.Retypes (coded coded' : Bool) : Op → Op → SlotMap Format → SlotMap Format → Prop
  | same (op : Op) (formats : SlotMap Format) : Retypes coded coded' op op formats formats
  | kernel {inFeatures : ℕ} {weights bias : List Float} {biasQuantizer : Option Quantizer} {formats : SlotMap Format}
      (hweight : formats.get .weight = some (.signs coded)) :
      Retypes coded coded' (.dense inFeatures weights bias (some (.signs coded)) biasQuantizer)
        (.dense inFeatures weights bias (some (.signs coded')) biasQuantizer) formats
        (formats.set .weight (some (.signs coded')))
  | activation {formats : SlotMap Format} (hresult : formats.get .result = some (.signs coded)) :
      Retypes coded coded' (.activation (.quantized (.signs coded))) (.activation (.quantized (.signs coded'))) formats
        (formats.set .result (some (.signs coded')))

theorem Quantizer.signs_injective {coded coded' : Bool} (h : signs coded' = signs coded) : coded' = coded := by
  cases h
  rfl

theorem Op.quantizerAt_accum (op : Op) : op.quantizerAt .accum = none := by
  cases op with
  | activation function => cases function <;> rfl
  | input | dense | batchNorm | softmax | add | concatenate => rfl

theorem SlotMap.get_set_of_eq {α : Type} {m : SlotMap α} {p q : Slot} {a : Option α} (h : p = q → a = m.get q) :
    (m.set p a).get q = m.get q := by
  rw [get_set]
  split
  case isTrue heq => exact h heq
  case isFalse => rfl

theorem Op.Retypes.get_eq {coded coded' : Bool} {op op' : Op} {formats formats' : SlotMap Format}
    (h : Op.Retypes coded coded' op op' formats formats') {p : Slot} (hp : op'.quantizerAt p = op.quantizerAt p) :
    formats'.get p = formats.get p := by
  cases h with
  | same => rfl
  | kernel hweight =>
    refine SlotMap.get_set_of_eq ?_
    rintro rfl
    rw [hweight, Quantizer.signs_injective (Option.some.inj hp)]
  | activation hresult =>
    refine SlotMap.get_set_of_eq ?_
    rintro rfl
    rw [hresult, Quantizer.signs_injective (Option.some.inj hp)]

namespace SlotMap

variable {α : Type} {overrides : SlotMap Override} {allowed : List Slot} {formats formats' : SlotMap Format} {p : Slot}

theorem set_comm {m : SlotMap α} {p q : Slot} (h : p ≠ q) (a b : Option α) :
    (m.set p a).set q b = (m.set q b).set p a := by
  refine ext_get fun r ↦ ?_
  simp only [get_set]
  by_cases hq : q = r
  · rw [if_pos hq, if_neg fun hp ↦ h (hp.trans hq.symm), if_pos hq]
  · rw [if_neg hq, if_neg hq]

theorem fillDefaults_set (default : Format) (required : List Slot) (formats : SlotMap Format) (p : Slot) (f : Format) :
    (formats.set p (some f)).fillDefaults default required =
      (formats.fillDefaults default required).set p (some f) := by
  refine ext_get fun q ↦ ?_
  rw [get_fillDefaults, get_set, get_set, get_fillDefaults]
  by_cases hq : p = q
  · simp [hq]
  · simp [hq]

theorem overridden_set (hp : overrides.get p = none) (f : Option Format)
    (h : overridden overrides allowed formats = .ok formats') :
    overridden overrides allowed (formats.set p f) = .ok (formats'.set p f) := by
  induction allowed generalizing formats with
  | nil =>
    cases h
    rfl
  | cons q allowed ih =>
    rw [overridden_cons] at h ⊢
    cases ho : overrides.get q with
    | none =>
      rw [ho] at h
      exact ih h
    | some o =>
      rw [ho] at h
      have hne : p ≠ q := by
        rintro rfl
        cases hp.symm.trans ho
      obtain ⟨f', hf', h⟩ := bind_eq_ok_iff.mp h
      refine bind_eq_ok_iff.mpr ⟨f', ?_, ?_⟩
      · rwa [get_set, if_neg hne]
      · rw [set_comm hne]
        exact ih h

end SlotMap

namespace Layer

variable {n n' : ℕ} {layer : Layer n} {layer' : Layer n'} {c : Config} {coded coded' : Bool} {p : Slot} {f f' : Format}
  {formats formats' : SlotMap Format} {inputs : List Format}

theorem overrideBoth_set (hp : c.Leaves layer.name p) (f : Option Format) {allowed : List Slot}
    (h : overrideBoth c.model c.layers[layer.name]? allowed formats = .ok formats') :
    overrideBoth c.model c.layers[layer.name]? allowed (formats.set p f) = .ok (formats'.set p f) := by
  obtain ⟨hmodel, hown⟩ := hp
  rw [Config.scope_some] at hown
  obtain ⟨formats₁, h₁, h⟩ := bind_eq_ok_iff.mp h
  refine bind_eq_ok_iff.mpr ⟨formats₁.set p f, SlotMap.overridden_set hmodel f h₁, ?_⟩
  cases hlayer : c.layers[layer.name]? with
  | none =>
    rw [hlayer] at h
    cases pure_eq_ok_iff.mp h
    rfl
  | some own =>
    rw [hlayer] at h hown
    exact SlotMap.overridden_set hown f h

theorem get_overrideBoth (hp : c.Leaves layer.name p) {allowed : List Slot} (hn : allowed.Nodup)
    (h : overrideBoth c.model c.layers[layer.name]? allowed formats = .ok formats') (hf : formats.get p = some f) :
    formats'.get p = some f := by
  obtain ⟨hrest, hspec⟩ := overrideBoth_spec h hn
  by_cases hmem : p ∈ allowed
  · obtain ⟨f', hf', hsettles⟩ := hspec p hmem f hf
    have hmerged := hsettles.merged
    rw [Scope.override, Scope.override, hp.model, hp.own] at hmerged
    cases (Override.apply_empty f).symm.trans hmerged
    exact hf'
  · exact (hrest p hmem).trans hf

theorem resolveFormats_set (hname : layer'.name = layer.name)
    (hslots : layer'.op.requiredSlots = layer.op.requiredSlots)
    (hp : p ∈ layer.operandSlots) (hleaves : c.Leaves layer.name p)
    (hderived : ∀ derived, layer.derivedFormats = .ok derived →
      derived.get p = some f ∧ layer'.derivedFormats = .ok (derived.set p (some f')))
    (haccum : ∀ formats, formats.get p = some f →
      layer'.inferAccumulator (formats.set p (some f')) inputs = layer.inferAccumulator formats inputs)
    (h : layer.resolveFormats c inputs = .ok formats) :
    layer'.resolveFormats c inputs = .ok (formats.set p (some f')) ∧ formats.get p = some f := by
  have hmem : p ∈ layer.op.requiredSlots ∧ p ≠ .accum := by simpa [operandSlots] using hp
  have hoperandSlots : layer'.operandSlots = layer.operandSlots := by rw [operandSlots, hslots, operandSlots]
  unfold resolveFormats at h ⊢
  rw [hoperandSlots, hslots, hname]
  obtain ⟨derived, hd, h⟩ := bind_eq_ok_iff.mp h
  obtain ⟨hget, hd'⟩ := hderived derived hd
  obtain ⟨operands, hoperands, h⟩ := bind_eq_ok_iff.mp h
  have hset := overrideBoth_set hleaves (some f') hoperands
  have hfilled : (derived.fillDefaults c.default layer.operandSlots).get p = some f := by
    rw [SlotMap.get_fillDefaults, if_pos hp, hget, Option.getD_some]
  have hoperand := get_overrideBoth hleaves (layer.op.nodup_requiredSlots.filter _) hoperands hfilled
  rw [← SlotMap.fillDefaults_set] at hset
  split at h
  case isFalse hno =>
    cases pure_eq_ok_iff.mp h
    refine ⟨bind_eq_ok_iff.mpr ⟨_, hd', bind_eq_ok_iff.mpr ⟨_, hset, ?_⟩⟩, hoperand⟩
    rw [if_neg hno]
    rfl
  case isTrue hyes =>
    obtain ⟨accum, hinfer, h⟩ := bind_eq_ok_iff.mp h
    have hbefore : (operands.set .accum accum).get p = some f := by rwa [SlotMap.get_set, if_neg hmem.2.symm]
    refine ⟨bind_eq_ok_iff.mpr ⟨_, hd', bind_eq_ok_iff.mpr ⟨_, hset, ?_⟩⟩,
      get_overrideBoth hleaves (List.nodup_singleton _) h hbefore⟩
    rw [if_pos hyes]
    refine bind_eq_ok_iff.mpr ⟨accum, (haccum operands hoperand).trans hinfer, ?_⟩
    change overrideBoth _ _ _ ((operands.set p (some f')).set .accum accum) = _
    rw [SlotMap.set_comm hmem.2]
    exact overrideBoth_set hleaves (some f') h

theorem resolveFormats_congr (hname : layer'.name = layer.name) (hop : layer'.op = layer.op)
    (hfeatures : layer'.features = layer.features) (c : Config) (inputs : List Format) :
    layer'.resolveFormats c inputs = layer.resolveFormats c inputs := by
  obtain ⟨name, op, _, features⟩ := layer
  obtain ⟨name', op', _, features'⟩ := layer'
  obtain rfl : name' = name := hname
  obtain rfl : op' = op := hop
  obtain rfl : features' = features := hfeatures
  rfl

section Kernel

variable {inFeatures : ℕ} {weights bias : List Float} {biasQuantizer : Option Quantizer}

theorem derivedFormats_kernel (hop : layer.op = .dense inFeatures weights bias (some (.signs coded)) biasQuantizer)
    (hop' : layer'.op = .dense inFeatures weights bias (some (.signs coded')) biasQuantizer)
    (hname : layer'.name = layer.name) {derived : SlotMap Format} (h : layer.derivedFormats = .ok derived) :
    derived.get .weight = some (.signs coded) ∧
      layer'.derivedFormats = .ok (derived.set .weight (some (.signs coded'))) := by
  unfold derivedFormats at h ⊢
  rw [hop] at h
  rw [hop']
  obtain ⟨weight, hweight, h⟩ := bind_eq_ok_iff.mp h
  obtain ⟨bias, hbias, h⟩ := bind_eq_ok_iff.mp h
  cases hweight
  cases pure_eq_ok_iff.mp h
  refine ⟨rfl, bind_eq_ok_iff.mpr ⟨some (.signs coded'), rfl, bind_eq_ok_iff.mpr ⟨bias, ?_, rfl⟩⟩⟩
  cases biasQuantizer with
  | none => exact hbias
  | some q =>
    unfold quantizerFormat? quantizerFormat at hbias ⊢
    rwa [hname]

theorem inferAccumulator_kernel (hop : layer.op = .dense inFeatures weights bias (some (.signs coded)) biasQuantizer)
    (hop' : layer'.op = .dense inFeatures weights bias (some (.signs coded')) biasQuantizer)
    (hname : layer'.name = layer.name) (hweight : formats.get .weight = some (.signs coded)) :
    layer'.inferAccumulator (formats.set .weight (some (.signs coded'))) inputs =
      layer.inferAccumulator formats inputs := by
  have hfirst : layer'.firstInput inputs = layer.firstInput inputs := by
    unfold firstInput
    rw [hname]
  have hoperand : layer.operand formats .weight = .ok (.signs coded) := by
    unfold operand
    rw [hweight]
  have hoperand' : layer'.operand (formats.set .weight (some (.signs coded'))) .weight = .ok (.signs coded') := rfl
  unfold inferAccumulator accumulatorWidth
  rw [hop, hop', hoperand, hoperand', hfirst]
  cases layer.firstInput inputs with
  | error e => rfl
  | ok input => simp only [bind, Except.bind, Option.map_some, Option.getD_some, Format.decoded_signs]

end Kernel

theorem derivedFormats_activation (hop : layer.op = .activation (.quantized (.signs coded)))
    (hop' : layer'.op = .activation (.quantized (.signs coded'))) {derived : SlotMap Format}
    (h : layer.derivedFormats = .ok derived) :
    derived.get .result = some (.signs coded) ∧
      layer'.derivedFormats = .ok (derived.set .result (some (.signs coded'))) := by
  unfold derivedFormats at h ⊢
  rw [hop] at h
  rw [hop']
  cases h
  exact ⟨rfl, rfl⟩

theorem exists_resolveFormats {op op' : Op} (hop : layer.op = op) (hop' : layer'.op = op')
    (hname : layer'.name = layer.name) (hfeatures : layer'.features = layer.features)
    (hrel : Op.Transcodes coded coded' (c.Leaves layer.name) op op') (h : layer.resolveFormats c inputs = .ok formats) :
    ∃ formats', layer'.resolveFormats c inputs = .ok formats' ∧ Op.Retypes coded coded' op op' formats formats' := by
  have hslots : layer'.op.requiredSlots = layer.op.requiredSlots := by rw [hop, hop', hrel.requiredSlots_eq]
  cases hrel with
  | same => exact ⟨formats, (resolveFormats_congr hname (hop'.trans hop.symm) hfeatures c inputs).trans h,
      .same op formats⟩
  | kernel hfree =>
    have hmem : .weight ∈ layer.operandSlots := by simp [operandSlots, hop, Op.requiredSlots]
    obtain ⟨h', hweight⟩ := resolveFormats_set hname hslots hmem hfree (fun _ ↦ derivedFormats_kernel hop hop' hname)
      (fun _ ↦ inferAccumulator_kernel hop hop' hname) h
    exact ⟨_, h', .kernel hweight⟩
  | activation hfree =>
    have hmem : .result ∈ layer.operandSlots := by simp [operandSlots, hop, Op.requiredSlots]
    have haccum (formats : SlotMap Format) (_ : formats.get .result = some (.signs coded)) :
        layer'.inferAccumulator (formats.set .result (some (.signs coded'))) inputs =
          layer.inferAccumulator formats inputs := by
      unfold inferAccumulator accumulatorWidth
      rw [hop, hop']
    obtain ⟨h', hresult⟩ :=
      resolveFormats_set hname hslots hmem hfree (fun _ ↦ derivedFormats_activation hop hop') haccum h
    exact ⟨_, h', .activation hresult⟩

end Layer

namespace Graph

variable {g g' : Graph} {d d' : Description} {c : Config} {coded coded' : Bool} {t : Typing g} {t' : Typing g'}

/-- Layers get formats that stand to each other as the layers do, and tables of one size. -/
structure Retypes (coded coded' : Bool) (g g' : Graph) (i : Fin g.size) (i' : Fin g'.size)
    (typed typed' : LayerFormats) : Prop where
  formats : Op.Retypes coded coded' (g.layer i).op (g'.layer i').op typed.formats typed'.formats
  tableSize_eq : typed'.tableSize = typed.tableSize

theorem arriving_retypes {i : Fin g.size} {i' : Fin g'.size} (hname : (g'.layer i').name = (g.layer i).name)
    (h : Retypes coded coded' g g' i i' (t.get i) (t'.get i')) : g'.arriving t' i' = g.arriving t i := by
  have hformats := h.formats
  unfold arriving
  rw [hname]
  generalize (g.layer i).op = op, (g'.layer i').op = op', (t.get i).formats = formats,
    (t'.get i').formats = formats' at hformats ⊢
  cases hformats with
  | same => rfl
  | kernel => rfl
  | activation hresult =>
    change formats.result = _ at hresult
    rw [hresult]
    exact congrArg Except.ok ((Format.decoded_signs coded').trans (Format.decoded_signs coded).symm)

/-- Operations stand to each other as those of layers that differ in the coding of signs at most. -/
abbrev Transcoding (c : Config) (coded coded' : Bool) (g g' : Graph) :=
  Matching (fun name ↦ Op.Transcodes coded coded' (c.Leaves name)) g g'

namespace Transcoding

variable (m : Transcoding c coded coded' g g')

include m in
theorem absentLayers_eq_nil_iff : g'.absentLayers c = [] ↔ g.absentLayers c = [] := by
  rw [← not_iff_not, ← ne_eq, ← ne_eq, absentLayers_ne_nil_iff, absentLayers_ne_nil_iff]
  simp only [m.forall_iff, m.name_eq]

/-- The layers of one network are resolved as those of the other. -/
structure Resolves (t : Typing g) (t' : Typing g') : Prop where
  retypes : ∀ i, Retypes coded coded' g g' i (m.index i) (t.get i) (t'.get (m.index i))

theorem exists_resolveLayer {i : Fin g.size} {typed : LayerFormats} (h : g.resolveLayer c t i = .ok typed) :
    ∃ typed', Retypes coded coded' g g' i (m.index i) typed typed' ∧ ∀ t' : Typing g',
      (∀ j ∈ (g.layer i).inputs, Retypes coded coded' g g' j (m.index j) (t.get j) (t'.get (m.index j))) →
        g'.resolveLayer c t' (m.index i) = .ok typed' := by
  obtain ⟨inputs, hinputs, h⟩ := bind_eq_ok_iff.mp h
  obtain ⟨formats, hformats, h⟩ := bind_eq_ok_iff.mp h
  cases pure_eq_ok_iff.mp h
  obtain ⟨formats', hformats', hretypes⟩ :=
    Layer.exists_resolveFormats rfl rfl (m.name_eq i) (m.features_eq i) (m.related i) hformats
  refine ⟨⟨formats', (g'.layer (m.index i)).resolveTableSize c⟩, ⟨hretypes, ?_⟩, fun t' ht' ↦ ?_⟩
  · change Layer.resolveTableSize _ c = Layer.resolveTableSize _ c
    rw [Layer.resolveTableSize_eq, Layer.resolveTableSize_eq, m.name_eq]
  · refine bind_eq_ok_iff.mpr ⟨inputs, ?_, bind_eq_ok_iff.mpr ⟨formats', hformats', rfl⟩⟩
    rw [m.inputs_eq, List.mapM_map, ← hinputs]
    exact mapM_congr_of_mem fun j hj ↦ arriving_retypes (m.name_eq j) (ht' j hj)

theorem exists_resolve (hd : g.Describes d) (hd' : g'.Describes d') {t₀ : Typing g} (h : g.resolve c t₀ = (t, .ok ())) :
    ∃ t', (∀ t₀', g'.resolve c t₀' = (t', .ok ())) ∧ m.Resolves t t' := by
  obtain ⟨hpresent, hlayers⟩ := (resolve_eq_ok_iff hd).mp h
  obtain ⟨t', hretypes, hlayers'⟩ := m.exists_counterparts (Finds c) (Finds c) t
    (fun i ↦ m.exists_resolveLayer) hlayers
  refine ⟨t', fun t₀' ↦ (resolve_eq_ok_iff hd').mpr ⟨m.absentLayers_eq_nil_iff.mpr hpresent, hlayers'⟩, ⟨hretypes⟩⟩

end Transcoding

end Graph

end FixedNet

import FixedNet.Proofs.Precision.Resolved

namespace FixedNet

namespace Override

variable {o model own : Override} {base f f₁ : Format}

theorem fields_of_apply (h : o.apply base = .ok f) : f.total = o.total.getD base.total ∧
    f.integer = o.integer.getD base.integer ∧ f.signed = o.signed.getD base.signed ∧
    f.rounding = o.rounding.getD base.rounding ∧ f.overflow = o.overflow.getD base.overflow := by
  obtain ⟨made, hmade, h⟩ := bind_eq_ok_iff.mp h
  cases pure_eq_ok_iff.mp h
  obtain ⟨htotal, hinteger, hsigned, -, -⟩ := Format.fields_of_make hmade
  exact ⟨htotal, hinteger, hsigned, rfl, rfl⟩

@[simp]
theorem apply_empty (base : Format) : apply {} base = .ok base := by
  have hmake : Format.make base.total base.integer base.signed =
      .ok { base with rounding := .down, overflow := .wrap } :=
    dif_pos ⟨base.total_bounds, base.integer_bounds⟩
  unfold apply
  simp only [Option.getD_none]
  rw [hmake]
  rfl

theorem apply_of_apply (h : model.apply base = .ok f₁) : own.apply f₁ = (model.merge own).apply base := by
  obtain ⟨htotal, hinteger, hsigned, hrounding, hoverflow⟩ := fields_of_apply h
  simp only [apply, merge, Option.getD_or, htotal, hinteger, hsigned, hrounding, hoverflow]

/-- A format with the fields of `own` where they are set, else those of `model`, else those of `base`; the overrides
lead to it in turn as well as merged. -/
structure Settles (model own : Override) (base f : Format) : Prop where
  total_eq : f.total = (own.total.or model.total).getD base.total
  integer_eq : f.integer = (own.integer.or model.integer).getD base.integer
  signed_eq : f.signed = (own.signed.or model.signed).getD base.signed
  rounding_eq : f.rounding = (own.rounding.or model.rounding).getD base.rounding
  overflow_eq : f.overflow = (own.overflow.or model.overflow).getD base.overflow
  in_turn : (model.apply base).bind own.apply = .ok f
  merged : (model.merge own).apply base = .ok f

theorem settles_of_apply (hmodel : model.apply base = .ok f₁) (hown : own.apply f₁ = .ok f) :
    Settles model own base f := by
  have hmerged := apply_of_apply hmodel ▸ hown
  obtain ⟨htotal, hinteger, hsigned, hrounding, hoverflow⟩ := fields_of_apply hmerged
  exact ⟨htotal, hinteger, hsigned, hrounding, hoverflow, bind_eq_ok_iff.mpr ⟨f₁, hmodel, hown⟩, hmerged⟩

end Override

namespace SlotMap

variable {overrides : SlotMap Override} {allowed : List Slot} {formats formats' : SlotMap Format}

theorem get_fillDefaults (default : Format) (required : List Slot) (formats : SlotMap Format) (p : Slot) :
    (formats.fillDefaults default required).get p =
      if p ∈ required then some ((formats.get p).getD (default.ofSlot p)) else formats.get p := by
  unfold fillDefaults
  induction required generalizing formats with
  | nil => simp
  | cons q required ih =>
    rw [List.foldl_cons, ih, get_set]
    by_cases hq : q = p
    · subst hq
      simp
    · simp [hq, Ne.symm hq]

theorem overridden_cons (overrides : SlotMap Override) (p : Slot) (allowed : List Slot) (formats : SlotMap Format) :
    overridden overrides (p :: allowed) formats =
      match overrides.get p with
      | none => overridden overrides allowed formats
      | some o => o.applyTo p (formats.get p) >>= fun f ↦ overridden overrides allowed (formats.set p (some f)) := by
  cases ho : overrides.get p with
  | none => simp only [overridden, override, ho]
  | some o => cases hf : o.applyTo p (formats.get p) <;> simp only [overridden, override, ho, hf] <;> rfl

theorem overridden_spec (h : overridden overrides allowed formats = .ok formats') (hn : allowed.Nodup) :
    (∀ p ∉ allowed, formats'.get p = formats.get p) ∧ ∀ p ∈ allowed, ∀ base, formats.get p = some base →
      ∃ f, formats'.get p = some f ∧ ((overrides.get p).getD {}).apply base = .ok f := by
  induction allowed generalizing formats with
  | nil =>
    cases h
    exact ⟨fun _ _ ↦ rfl, by simp⟩
  | cons q allowed ih =>
    obtain ⟨hq, hn⟩ := List.nodup_cons.mp hn
    rw [overridden_cons] at h
    cases ho : overrides.get q with
    | none =>
      rw [ho] at h
      obtain ⟨hrest, hspec⟩ := ih h hn
      refine ⟨fun p hp ↦ hrest p (List.not_mem_of_not_mem_cons hp), fun p hp base hbase ↦ ?_⟩
      rcases List.mem_cons.mp hp with rfl | hp
      · exact ⟨base, (hrest p hq).trans hbase, by simp [ho]⟩
      · exact hspec p hp base hbase
    | some o =>
      rw [ho] at h
      obtain ⟨f, hf, h⟩ := bind_eq_ok_iff.mp h
      obtain ⟨hrest, hspec⟩ := ih h hn
      refine ⟨fun p hp ↦ ?_, fun p hp base hbase ↦ ?_⟩
      · rw [hrest p (List.not_mem_of_not_mem_cons hp), get_set, if_neg (List.ne_of_not_mem_cons hp).symm]
      · rcases List.mem_cons.mp hp with rfl | hp
        · rw [hbase] at hf
          exact ⟨f, by rw [hrest p hq, get_set, if_pos rfl], by rw [ho]; exact mapError_eq_ok_iff.mp hf⟩
        · refine hspec p hp base ?_
          rw [get_set, if_neg, hbase]
          rintro rfl
          exact hq hp

end SlotMap

@[simp]
theorem Scope.override_empty (p : Slot) : ({} : Scope).override p = {} := by cases p <;> rfl

@[simp]
theorem Config.scope_empty (name : Option String) : ({} : Config).scope name = {} := by
  cases name with
  | none => rfl
  | some name => rw [scope_some, Std.ExtTreeMap.getElem?_empty, Option.getD_none]

namespace Op

variable (op : Op)

/-- The quantizer whose codes a slot holds. -/
def quantizerAt : Op → Slot → Option Quantizer
  | dense _ _ _ kernelQuantizer _, .weight => kernelQuantizer
  | dense _ _ _ _ biasQuantizer, .bias => biasQuantizer
  | activation (.quantized q), .result => some q
  | _, _ => none

theorem nodup_requiredSlots : op.requiredSlots.Nodup := by
  cases op with
  | dense =>
    simp only [requiredSlots]
    split <;> simp
  | input | batchNorm | activation | softmax | add | concatenate => simp [requiredSlots]

theorem mem_requiredSlots_of_quantizerAt {p : Slot} (h : op.quantizerAt p ≠ none) : p ∈ op.requiredSlots := by
  unfold quantizerAt at h
  split at h
  · simp [requiredSlots]
  · simp [requiredSlots]
  · simp [requiredSlots]
  · contradiction

end Op

namespace Layer

variable {n : ℕ} (layer : Layer n)

def baseFormat (default : Format) (p : Slot) : Except NumericError Format :=
  match layer.op.quantizerAt p with
  | some q => q.format
  | none => .ok (default.ofSlot p)

/-- Formats of a layer in which overrides take precedence over the bases. An accumulator is inferred from the formats
themselves and from those in which the inputs arrive. -/
structure FollowsPrecedence (c : Config) (inputs : List Format) (formats : SlotMap Format) : Prop where
  operands : ∀ p ∈ layer.op.requiredSlots, p ≠ .accum → ∃ base f, layer.baseFormat c.default p = .ok base ∧
    formats.get p = some f ∧ ((c.scope none).override p).Settles ((c.scope (some layer.name)).override p) base f
  accum : .accum ∈ layer.op.requiredSlots → ∃ base f, layer.inferAccumulator formats inputs = .ok (some base) ∧
    formats.get .accum = some f ∧
      ((c.scope none).override .accum).Settles ((c.scope (some layer.name)).override .accum) base f
  others : ∀ p ∉ layer.op.requiredSlots, formats.get p = none

variable {layer} {c : Config} {formats formats' : SlotMap Format}

theorem rel_of_quantizerFormat? {q : Option Quantizer} {f : Option Format} (h : layer.quantizerFormat? q = .ok f) :
    Option.Rel (fun q f ↦ q.format = .ok f) q f := by
  cases q with
  | none =>
    cases h
    exact .none
  | some q =>
    obtain ⟨f', hf, rfl⟩ := map_eq_ok_iff.mp h
    exact .some (mapError_eq_ok_iff.mp hf)

theorem rel_of_derivedFormats {derived : SlotMap Format} (h : layer.derivedFormats = .ok derived) (p : Slot) :
    Option.Rel (fun q f ↦ q.format = .ok f) (layer.op.quantizerAt p) (derived.get p) := by
  unfold derivedFormats at h
  cases hop : layer.op with
  | dense _ _ _ kernelQuantizer biasQuantizer =>
    rw [hop] at h
    obtain ⟨weight, hweight, h⟩ := bind_eq_ok_iff.mp h
    obtain ⟨bias, hbias, h⟩ := bind_eq_ok_iff.mp h
    cases pure_eq_ok_iff.mp h
    cases p with
    | weight => exact rel_of_quantizerFormat? hweight
    | bias => exact rel_of_quantizerFormat? hbias
    | scale | accum | result | expTable | invTable => exact .none
  | activation function =>
    rw [hop] at h
    cases function with
    | quantized q =>
      obtain ⟨result, hresult, h⟩ := bind_eq_ok_iff.mp h
      cases pure_eq_ok_iff.mp h
      cases p with
      | result => exact .some (mapError_eq_ok_iff.mp hresult)
      | weight | bias | scale | accum | expTable | invTable => exact .none
    | linear | relu =>
      cases pure_eq_ok_iff.mp h
      cases p <;> exact .none
  | input | batchNorm | softmax | add | concatenate =>
    rw [hop] at h
    cases pure_eq_ok_iff.mp h
    cases p <;> exact .none

theorem baseFormat_of_derivedFormats {derived : SlotMap Format} (h : layer.derivedFormats = .ok derived)
    (default : Format) (p : Slot) : layer.baseFormat default p = .ok ((derived.get p).getD (default.ofSlot p)) := by
  have hrel := rel_of_derivedFormats h p
  unfold baseFormat
  generalize layer.op.quantizerAt p = q, derived.get p = f at hrel ⊢
  cases hrel with
  | some hf => exact hf
  | none => rfl

theorem overrideBoth_spec {allowed : List Slot}
    (h : overrideBoth c.model c.layers[layer.name]? allowed formats = .ok formats') (hn : allowed.Nodup) :
    (∀ p ∉ allowed, formats'.get p = formats.get p) ∧ ∀ p ∈ allowed, ∀ base, formats.get p = some base →
      ∃ f, formats'.get p = some f ∧
        ((c.scope none).override p).Settles ((c.scope (some layer.name)).override p) base f := by
  obtain ⟨formats₁, hmodel, h⟩ := bind_eq_ok_iff.mp h
  obtain ⟨hrest₁, hspec₁⟩ := SlotMap.overridden_spec hmodel hn
  have hown : (∀ p ∉ allowed, formats'.get p = formats₁.get p) ∧ ∀ p ∈ allowed, ∀ base, formats₁.get p = some base →
      ∃ f, formats'.get p = some f ∧ ((c.scope (some layer.name)).override p).apply base = .ok f := by
    rw [Config.scope_some]
    cases hlayer : c.layers[layer.name]? with
    | none =>
      rw [hlayer] at h
      cases pure_eq_ok_iff.mp h
      exact ⟨fun _ _ ↦ rfl, fun p _ base hbase ↦ ⟨base, hbase, by simp⟩⟩
    | some own =>
      rw [hlayer] at h
      exact SlotMap.overridden_spec h hn
  obtain ⟨hrest, hspec⟩ := hown
  refine ⟨fun p hp ↦ (hrest p hp).trans (hrest₁ p hp), fun p hp base hbase ↦ ?_⟩
  obtain ⟨f₁, hf₁, happly₁⟩ := hspec₁ p hp base hbase
  obtain ⟨f, hf, happly⟩ := hspec p hp f₁ hf₁
  exact ⟨f, hf, Override.settles_of_apply happly₁ happly⟩

theorem inferAccumulator_congr {inputs : List Format} (h : ∀ p ≠ .accum, formats'.get p = formats.get p) :
    layer.inferAccumulator formats' inputs = layer.inferAccumulator formats inputs := by
  have hoperand {p : Slot} (hp : p ≠ .accum) : layer.operand formats' p = layer.operand formats p := by
    unfold operand
    rw [h p hp]
  unfold inferAccumulator accumulatorWidth
  rw [hoperand (p := .weight) (by decide), hoperand (p := .scale) (by decide), hoperand (p := .expTable) (by decide)]

theorem exists_of_inferAccumulator {inputs : List Format} {accum : Option Format}
    (h : layer.inferAccumulator formats inputs = .ok accum) (haccum : .accum ∈ layer.op.requiredSlots) :
    ∃ base, accum = some base := by
  obtain ⟨width, hwidth, h⟩ := bind_eq_ok_iff.mp h
  cases width with
  | some w =>
    obtain ⟨base, -, h⟩ := bind_eq_ok_iff.mp h
    exact ⟨base, (pure_eq_ok_iff.mp h).symm⟩
  | none =>
    exfalso
    unfold accumulatorWidth at hwidth
    cases hop : layer.op with
    | input | activation | concatenate => simp [hop, Op.requiredSlots] at haccum
    | dense | batchNorm =>
      rw [hop] at hwidth
      obtain ⟨_, -, hwidth⟩ := bind_eq_ok_iff.mp hwidth
      obtain ⟨_, -, hwidth⟩ := bind_eq_ok_iff.mp hwidth
      cases hwidth
    | softmax =>
      rw [hop] at hwidth
      obtain ⟨_, -, hwidth⟩ := bind_eq_ok_iff.mp hwidth
      cases hwidth
    | add =>
      rw [hop] at hwidth
      cases hwidth

theorem followsPrecedence_of_resolveFormats {inputs : List Format} (h : layer.resolveFormats c inputs = .ok formats) :
    layer.FollowsPrecedence c inputs formats := by
  unfold resolveFormats at h
  dsimp only at h
  obtain ⟨derived, hderived, h⟩ := bind_eq_ok_iff.mp h
  obtain ⟨operands, hoperands, h⟩ := bind_eq_ok_iff.mp h
  have hmem (p : Slot) : p ∈ layer.operandSlots ↔ p ∈ layer.op.requiredSlots ∧ p ≠ .accum := by simp [operandSlots]
  obtain ⟨hrest, hspec⟩ := overrideBoth_spec hoperands (layer.op.nodup_requiredSlots.filter _)
  have hoperand : ∀ p ∈ layer.operandSlots, ∃ base f, layer.baseFormat c.default p = .ok base ∧
      operands.get p = some f ∧
        ((c.scope none).override p).Settles ((c.scope (some layer.name)).override p) base f := by
    intro p hp
    obtain ⟨f, hf, hsettles⟩ := hspec p hp _ (by rw [SlotMap.get_fillDefaults, if_pos hp])
    exact ⟨_, f, baseFormat_of_derivedFormats hderived c.default p, hf, hsettles⟩
  have hother : ∀ p ∉ layer.op.requiredSlots, operands.get p = none := by
    intro p hp
    have hp' : p ∉ layer.operandSlots := fun hmem' ↦ hp ((hmem p).mp hmem').1
    rw [hrest p hp', SlotMap.get_fillDefaults, if_neg hp']
    have hrel := rel_of_derivedFormats hderived p
    rw [not_imp_comm.mp layer.op.mem_requiredSlots_of_quantizerAt hp] at hrel
    generalize derived.get p = f at hrel ⊢
    cases hrel
    rfl
  split at h
  case isFalse hno =>
    cases pure_eq_ok_iff.mp h
    have hno : .accum ∉ layer.op.requiredSlots := fun haccum ↦ hno (List.contains_iff_mem.mpr haccum)
    exact ⟨fun p hp haccum ↦ hoperand p ((hmem p).mpr ⟨hp, haccum⟩), fun haccum ↦ absurd haccum hno, hother⟩
  case isTrue haccum =>
    obtain ⟨accum, hinfer, h⟩ := bind_eq_ok_iff.mp h
    obtain ⟨base, rfl⟩ := exists_of_inferAccumulator hinfer (List.contains_iff_mem.mp haccum)
    obtain ⟨hrest', hspec'⟩ := overrideBoth_spec h (List.nodup_singleton _)
    -- Overriding the accumulator leaves the operands that it was inferred from.
    have hkept : ∀ p ≠ .accum, formats.get p = operands.get p := by
      intro p hp
      rw [hrest' p (List.mem_singleton.not.mpr hp)]
      cases p <;> first | rfl | contradiction
    refine ⟨fun p hp haccum ↦ ?_, fun _ ↦ ?_, fun p hp ↦ ?_⟩
    · rw [hkept p haccum]
      exact hoperand p ((hmem p).mpr ⟨hp, haccum⟩)
    · obtain ⟨f, hf, hsettles⟩ := hspec' .accum (List.mem_singleton_self _) base rfl
      exact ⟨base, f, (inferAccumulator_congr hkept).trans hinfer, hf, hsettles⟩
    · rw [hkept p, hother p hp]
      rintro rfl
      exact hp (List.contains_iff_mem.mp haccum)

theorem resolveTableSize_eq (c : Config) : layer.resolveTableSize c =
    ((c.scope (some layer.name)).tableSize.or (c.scope none).tableSize).getD 1024 := by
  unfold resolveTableSize
  rw [Config.scope_some]
  cases c.layers[layer.name]? <;> rfl

end Layer

namespace Graph

variable {g : Graph} {d : Description} {c : Config} {t t' : Typing g}

/-- After resolution every layer has the formats, and the table size, that the overrides decide. -/
theorem resolved_followsPrecedence (hg : Graph.ofDescription d = .ok g) (h : g.resolve c t = (t', .ok ()))
    (i : Fin g.size) : ∃ inputs, (g.layer i).inputs.mapM (g.arriving t') = .ok inputs ∧
      (g.layer i).FollowsPrecedence c inputs (t'.get i).formats ∧
      (t'.get i).tableSize = ((c.scope (some (g.layer i).name)).tableSize.or (c.scope none).tableSize).getD 1024 := by
  obtain ⟨inputs, hinputs, hlayer⟩ := bind_eq_ok_iff.mp (resolveLayer_of_resolve hg h i)
  obtain ⟨formats, hformats, hlayer⟩ := bind_eq_ok_iff.mp hlayer
  rw [← pure_eq_ok_iff.mp hlayer]
  exact ⟨inputs, hinputs, Layer.followsPrecedence_of_resolveFormats hformats, Layer.resolveTableSize_eq c⟩

end Graph

def layeredConfig : Config where
  model := { overrides := { weight := some { total := some 8 }, accum := some { rounding := some .nearestEven } } }
  layers := Std.ExtTreeMap.empty.insert "unit"
    { overrides := { weight := some { integer := some 3 }, accum := some { overflow := some .saturate } } }

set_option maxRecDepth 20000 in
theorem resolve_layeredConfig : ∃ t, affineGraph.resolve layeredConfig affineGraph.untyped = (t, .ok ()) ∧
    (t.get affineGraph.output).formats.weight = some { total := 8, integer := 3, signed := true } ∧
    (t.get affineGraph.output).formats.accum =
      some ⟨25, 10, true, .nearestEven, .saturate, by decide, by decide⟩ := ⟨_, rfl, rfl, rfl⟩

theorem resolved_followsPrecedence_affine : ∃ t,
    affineGraph.resolve layeredConfig affineGraph.untyped = (t, .ok ()) ∧
      (t.get affineGraph.output).formats.weight = some { total := 8, integer := 3, signed := true } ∧
      ∃ inputs, (affineGraph.layer affineGraph.output).FollowsPrecedence layeredConfig inputs
        (t.get affineGraph.output).formats := by
  obtain ⟨t, ht, hweight, -⟩ := resolve_layeredConfig
  obtain ⟨inputs, -, hfollows, -⟩ := Graph.resolved_followsPrecedence ofDescription_affine ht affineGraph.output
  exact ⟨t, ht, hweight, inputs, hfollows⟩

end FixedNet

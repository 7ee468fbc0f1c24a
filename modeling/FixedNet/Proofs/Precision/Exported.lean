import FixedNet.Precision.Export
import FixedNet.Proofs.Precision.Afresh
import FixedNet.Proofs.Precision.Built

namespace FixedNet

@[simp]
theorem Override.apply_whole (f base : Format) : (whole f).apply base = .ok f := by
  have hmake : Format.make f.total f.integer f.signed = .ok { f with rounding := .down, overflow := .wrap } :=
    dif_pos ⟨f.total_bounds, f.integer_bounds⟩
  unfold apply whole
  simp only [Option.getD_some]
  rw [hmake]
  rfl

namespace SlotMap

variable {overrides : SlotMap Override} {allowed : List Slot} {formats : SlotMap Format}

theorem set_get_self {α : Type} (m : SlotMap α) (p : Slot) : m.set p (m.get p) = m := by cases p <;> rfl

theorem overridden_of_whole (h : ∀ p ∈ allowed, ∀ o, overrides.get p = some o →
    ∃ f, formats.get p = some f ∧ o = .whole f) : overridden overrides allowed formats = .ok formats := by
  induction allowed with
  | nil => rfl
  | cons p allowed ih =>
    have hrest := ih fun q hq ↦ h q (List.mem_cons_of_mem p hq)
    rw [overridden_cons]
    cases ho : overrides.get p with
    | none => exact hrest
    | some o =>
      obtain ⟨f, hf, rfl⟩ := h p List.mem_cons_self o ho
      refine bind_eq_ok_iff.mpr ⟨f, ?_, ?_⟩
      · rw [hf]
        exact mapError_eq_ok_iff.mpr (Override.apply_whole f f)
      · rwa [← hf, set_get_self]

end SlotMap

namespace Layer

variable {n : ℕ} {layer : Layer n} {c : Config} {scope : Scope}

theorem overrideBoth_of_whole {allowed : List Slot} {formats : SlotMap Format} (hmodel : c.model = {})
    (hown : ∀ p ∈ allowed, ∀ o, (c.scope (some layer.name)).overrides.get p = some o →
      ∃ f, formats.get p = some f ∧ o = .whole f) :
    overrideBoth c.model c.layers[layer.name]? allowed formats = .ok formats := by
  rw [Config.scope_some] at hown
  refine bind_eq_ok_iff.mpr ⟨formats, ?_, ?_⟩
  · rw [hmodel]
    exact SlotMap.overridden_of_whole fun p _ o ho ↦ by cases p <;> cases ho
  · cases hlayer : c.layers[layer.name]? with
    | none => rfl
    | some own =>
      rw [hlayer] at hown
      exact SlotMap.overridden_of_whole hown

theorem resolveFormats_of_whole {derived : SlotMap Format} (hderived : layer.derivedFormats = .ok derived)
    (hmodel : c.model = {})
    (hown : ∀ p ∈ layer.operandSlots, ∀ o, (c.scope (some layer.name)).overrides.get p = some o →
      ∃ f, (derived.fillDefaults c.default layer.operandSlots).get p = some f ∧ o = .whole f)
    (haccum : (c.scope (some layer.name)).overrides.get .accum = none) (inputs : List Format) :
    layer.resolveFormats c inputs =
      if layer.op.requiredSlots.contains .accum then do
        let accum ← layer.inferAccumulator (derived.fillDefaults c.default layer.operandSlots) inputs
        return { derived.fillDefaults c.default layer.operandSlots with accum }
      else return derived.fillDefaults c.default layer.operandSlots := by
  unfold resolveFormats
  rw [hderived]
  change (overrideBoth _ _ _ _ >>= _) = _
  rw [overrideBoth_of_whole hmodel hown]
  refine if_congr Iff.rfl (congrArg _ (funext fun accum ↦ ?_)) rfl
  refine overrideBoth_of_whole hmodel fun p hp o ho ↦ ?_
  rw [List.mem_singleton.mp hp, haccum] at ho
  cases ho

/-- Formats, slot by slot, as whole overrides over a scope. -/
def spellOut (formats : SlotMap Format) (slots : List Slot) (scope : Scope) : Scope :=
  slots.foldl (fun s p ↦ match formats.get p with | some f => s.setFormat p f | none => s) scope

theorem get_spellOut (formats : SlotMap Format) (slots : List Slot) (scope : Scope) (p : Slot) :
    (spellOut formats slots scope).overrides.get p =
      if p ∈ slots then ((formats.get p).map .whole).or (scope.overrides.get p) else scope.overrides.get p := by
  unfold spellOut
  induction slots generalizing scope with
  | nil => rfl
  | cons q slots ih =>
    rw [List.foldl_cons, ih]
    by_cases hp : p = q
    · subst hp
      cases hq : formats.get p <;> simp [Scope.setFormat, SlotMap.get_set]
    · cases hq : formats.get q <;> simp [hp, Ne.symm hp, Scope.setFormat, SlotMap.get_set]

theorem tableSize_spellOut (formats : SlotMap Format) (slots : List Slot) (scope : Scope) :
    (spellOut formats slots scope).tableSize = scope.tableSize := by
  unfold spellOut
  induction slots generalizing scope with
  | nil => rfl
  | cons q slots ih =>
    rw [List.foldl_cons, ih]
    cases formats.get q <;> rfl

theorem get_spellOut_fillDefaults (derived : SlotMap Format) (default : Format) (slots : List Slot) (p : Slot) :
    (spellOut (derived.fillDefaults default slots) slots {}).overrides.get p =
      if p ∈ slots then some (.whole ((derived.get p).getD (default.ofSlot p))) else none := by
  have hnone : ({} : Scope).overrides.get p = none := SlotMap.get_empty p
  rw [get_spellOut, SlotMap.get_fillDefaults, hnone]
  split <;> simp

theorem exists_exportScope {derived : SlotMap Format} (h : layer.derivedFormats = .ok derived) (default : Format) :
    ∃ size : Option ℕ, (∀ entries ∈ size, entries = 1024) ∧ layer.exportScope default =
      .ok { spellOut (derived.fillDefaults default layer.operandSlots) layer.operandSlots {} with
        tableSize := size } := by
  have hnone : ∀ entries ∈ (spellOut (derived.fillDefaults default layer.operandSlots) layer.operandSlots {}).tableSize,
      entries = 1024 := by simp [tableSize_spellOut]
  unfold exportScope
  rw [h]
  cases layer.op with
  | softmax => exact ⟨some 1024, by simp, rfl⟩
  | input | dense | batchNorm | activation | add | concatenate => exact ⟨_, hnone, rfl⟩

/-- A scope that says what the layer would have without it: there is an entry for each operand slot, and for no
other. -/
structure Exports (layer : Layer n) (default : Format) (scope : Scope) : Prop where
  get_overrides : ∀ derived, layer.derivedFormats = .ok derived → ∀ p, scope.overrides.get p =
    if p ∈ layer.operandSlots then some (.whole ((derived.get p).getD (default.ofSlot p))) else none
  tableSize : scope.tableSize.getD 1024 = 1024

theorem exists_exports {derived : SlotMap Format} (h : layer.derivedFormats = .ok derived) (default : Format) :
    ∃ scope, layer.exportScope default = .ok scope ∧ layer.Exports default scope := by
  obtain ⟨size, hsize, hexport⟩ := exists_exportScope h default
  refine ⟨_, hexport, fun derived' hderived' p ↦ ?_, ?_⟩
  · cases h.symm.trans hderived'
    exact get_spellOut_fillDefaults derived default layer.operandSlots p
  · cases size with
    | none => rfl
    | some entries => exact hsize entries rfl

end Layer

/-- The configuration gives each of the layers, and no other, a scope that says what the layer would have without it. -/
structure Exported {n : ℕ} (c : Config) (layers : List (Layer n)) : Prop where
  default_eq : c.default = default
  model_eq : c.model = {}
  exports : ∀ layer ∈ layers, layer.Exports default (c.scope (some layer.name))
  named : ∀ name ∈ c.layers, name ∈ layers.map Layer.name

namespace Exported

variable {n : ℕ} {c : Config} {layers : List (Layer n)} {layer : Layer n}

theorem empty : Exported {} ([] : List (Layer n)) where
  default_eq := rfl
  model_eq := rfl
  exports _ h := absurd h List.not_mem_nil
  named _ h := absurd h Std.ExtTreeMap.not_mem_empty

theorem setScope (h : Exported c layers) {scope : Scope} (hscope : layer.Exports default scope)
    (hname : layer.name ∉ layers.map Layer.name) :
    Exported (c.setScope (some layer.name) scope) (layers ++ [layer]) where
  default_eq := h.default_eq
  model_eq := h.model_eq
  exports := by
    intro other hother
    rw [Config.scope_setScope]
    rcases List.mem_append.mp hother with hother | hother
    · have hne : some other.name ≠ some layer.name := by
        intro heq
        exact hname (Option.some.inj heq ▸ List.mem_map_of_mem hother)
      rw [if_neg hne]
      exact h.exports other hother
    · cases List.mem_singleton.mp hother
      rwa [if_pos rfl]
  named := by
    intro name hmem
    rw [List.map_append, List.mem_append]
    rcases Std.ExtTreeMap.mem_insert.mp hmem with heq | hmem
    · exact .inr (List.mem_singleton.mpr (Std.LawfulEqCmp.eq_of_compare heq).symm)
    · exact .inl (h.named name hmem)

theorem exists_foldlM (h : Exported c layers) (rest : List (Layer n)) (hnodup : ((layers ++ rest).map Layer.name).Nodup)
    (hderived : ∀ layer ∈ rest, ∃ derived, layer.derivedFormats = .ok derived) : ∃ c',
    rest.foldlM (fun c layer ↦ do return c.setScope (some layer.name) (← layer.exportScope c.default)) c = .ok c' ∧
      Exported c' (layers ++ rest) := by
  induction rest generalizing c layers with
  | nil => exact ⟨c, rfl, (List.append_nil layers).symm ▸ h⟩
  | cons layer rest ih =>
    obtain ⟨derived, hlayer⟩ := hderived layer List.mem_cons_self
    obtain ⟨scope, hscope, hexports⟩ := Layer.exists_exports hlayer default
    rw [List.append_cons] at hnodup ⊢
    have hname : layer.name ∉ layers.map Layer.name := by
      rw [List.map_append, List.map_append, List.append_assoc] at hnodup
      intro hmem
      exact (List.nodup_append.mp hnodup).2.2 _ hmem _ List.mem_cons_self rfl
    obtain ⟨c', hfold, hc'⟩ :=
      ih (h.setScope hexports hname) hnodup fun l hl ↦ hderived l (List.mem_cons_of_mem layer hl)
    refine ⟨c', ?_, hc'⟩
    rw [List.foldlM_cons, h.default_eq, hscope]
    exact hfold

theorem resolveFormats_eq (h : Exported c layers) (hlayer : layer ∈ layers) (inputs : List Format) :
    layer.resolveFormats c inputs = layer.resolveFormats {} inputs := by
  have hget := (h.exports layer hlayer).get_overrides
  have hnone (p : Slot) : (({} : Config).scope (some layer.name)).overrides.get p = none := by
    rw [Config.scope_empty]
    exact SlotMap.get_empty p
  cases hderived : layer.derivedFormats with
  | error e =>
    unfold Layer.resolveFormats
    rw [hderived]
    rfl
  | ok derived =>
    have haccum := hget derived hderived .accum
    rw [if_neg (by simp [Layer.operandSlots])] at haccum
    rw [Layer.resolveFormats_of_whole hderived h.model_eq (fun p hp o ho ↦ ?_) haccum,
      Layer.resolveFormats_of_whole hderived rfl (fun p _ o ho ↦ ?_) (hnone .accum), h.default_eq]
    · cases (hnone p).symm.trans ho
    · rw [hget derived hderived, if_pos hp] at ho
      exact ⟨_, by rw [SlotMap.get_fillDefaults, if_pos hp, h.default_eq], (Option.some.inj ho).symm⟩

theorem resolveTableSize_eq (h : Exported c layers) (hlayer : layer ∈ layers) :
    layer.resolveTableSize c = layer.resolveTableSize {} := by
  have hsize := (h.exports layer hlayer).tableSize
  rw [Layer.resolveTableSize_eq, Layer.resolveTableSize_eq, Config.scope_empty]
  change ((c.scope (some layer.name)).tableSize.or c.model.tableSize).getD 1024 = 1024
  rw [h.model_eq, Option.or_none, hsize]

end Exported

namespace Graph

variable {g : Graph} {d : Description} {c : Config} {t t' : Typing g}

theorem layer_mem_toList (g : Graph) (i : Fin g.size) : g.layer i ∈ g.layers.toList :=
  Vector.mem_toList_iff.mpr (Vector.getElem_mem i.isLt)

theorem nodup_names (hg : Graph.ofDescription d = .ok g) : (g.layers.toList.map Layer.name).Nodup := by
  refine List.pairwise_iff_getElem.mpr fun k l hk hl hkl heq ↦ ?_
  rw [List.length_map, Vector.length_toList] at hk hl
  simp only [List.getElem_map, Vector.getElem_toList] at heq
  have hindex : (⟨k, hk⟩ : Fin g.size) = ⟨l, hl⟩ := name_injective hg heq
  exact hkl.ne (congrArg Fin.val hindex)

theorem resolveLayer_of_exported (h : Exported c g.layers.toList) (t : Typing g) (i : Fin g.size) :
    g.resolveLayer c t i = g.resolveLayer {} t i := by
  unfold resolveLayer
  rw [h.resolveTableSize_eq (g.layer_mem_toList i)]
  refine congrArg _ (funext fun inputs ↦ ?_)
  rw [h.resolveFormats_eq (g.layer_mem_toList i)]

theorem absentLayers_of_exported (h : Exported c g.layers.toList) : g.absentLayers c = [] := by
  by_contra hne
  obtain ⟨name, hmem, hname⟩ := absentLayers_ne_nil_iff.mp hne
  obtain ⟨layer, hlayer, rfl⟩ := List.mem_map.mp (h.named name hmem)
  obtain ⟨k, hk, rfl⟩ := Vector.getElem_of_mem (Vector.mem_toList_iff.mp hlayer)
  exact hname ⟨k, hk⟩ rfl

/-- The export by name gives each layer, and nothing else, an entry: in it, the formats of its operand slots as they are
without any configuration. -/
theorem exists_exportConfig_name (hg : Graph.ofDescription d = .ok g)
    (hderived : ∀ i, ∃ derived, (g.layer i).derivedFormats = .ok derived) :
    ∃ c, g.exportConfig .name = .ok c ∧ Exported c g.layers.toList := by
  refine Exported.empty.exists_foldlM g.layers.toList (nodup_names hg) fun layer hlayer ↦ ?_
  obtain ⟨k, hk, rfl⟩ := Vector.getElem_of_mem (Vector.mem_toList_iff.mp hlayer)
  exact hderived ⟨k, hk⟩

/-- Where resolution without a configuration succeeds, so does the export, whatever it spells out; and resolution under
what was exported comes to the same formats and table sizes, accumulators included. -/
theorem resolve_exportConfig (hg : Graph.ofDescription d = .ok g) (granularity : Granularity)
    (h : g.resolve {} t = (t', .ok ())) :
    ∃ c, g.exportConfig granularity = .ok c ∧ ∀ t₀, g.resolve c t₀ = (t', .ok ()) := by
  have hd := describes_of_isOk hg
  obtain ⟨hpresent, hlayers⟩ := (resolve_eq_ok_iff hd).mp h
  cases granularity with
  | model => exact ⟨{}, rfl, fun t₀ ↦ (resolve_eq_ok_iff hd).mpr ⟨hpresent, hlayers⟩⟩
  | name =>
    obtain ⟨c, hc, hexported⟩ := exists_exportConfig_name hg fun i ↦ by
      obtain ⟨inputs, -, hi⟩ := bind_eq_ok_iff.mp (hlayers i)
      obtain ⟨formats, hformats, -⟩ := bind_eq_ok_iff.mp hi
      obtain ⟨derived, hderived, -⟩ := bind_eq_ok_iff.mp hformats
      exact ⟨derived, hderived⟩
    refine ⟨c, hc, fun t₀ ↦ (resolve_eq_ok_iff hd).mpr ⟨absentLayers_of_exported hexported, fun i ↦ ?_⟩⟩
    rw [resolveLayer_of_exported hexported]
    exact hlayers i

end Graph

def scored : Description :=
  [⟨"data", [], .input 2⟩, ⟨"unit", ["data"], .dense 2 [0.5, -1.25, 2, 0] none (some "ternary(alpha='auto')") none⟩,
    ⟨"score", ["unit"], .softmax⟩]

def scoredGraph : Graph where
  size := 3
  layers := #v[⟨"data", .input, [], 2⟩,
    ⟨"unit", .dense 2 [0.5, -1.25, 2, 0] [0, 0] (some (.ternary ⟨.auto, none⟩)) none, [0], 2⟩,
    ⟨"score", .softmax, [1], 2⟩]
  order := [0, 1, 2]
  input := 0
  output := 2

set_option maxRecDepth 20000 in
theorem ofDescription_scored : Graph.ofDescription scored = .ok scoredGraph := rfl

theorem resolve_scored : ∃ t, scoredGraph.resolve {} scoredGraph.untyped = (t, .ok ()) ∧
    (t.get scoredGraph.output).formats.accum = some { total := 19, integer := 9, signed := true } := ⟨_, rfl, rfl⟩

theorem resolve_exportConfig_scored : ∃ t c, Graph.ofDescription scored = .ok scoredGraph ∧
    scoredGraph.resolve {} scoredGraph.untyped = (t, .ok ()) ∧ scoredGraph.exportConfig .name = .ok c ∧
      scoredGraph.resolve c t = (t, .ok ()) ∧
        (t.get scoredGraph.output).formats.accum = some { total := 19, integer := 9, signed := true } := by
  obtain ⟨t, ht, haccum⟩ := resolve_scored
  obtain ⟨c, hc, hresolve⟩ := Graph.resolve_exportConfig ofDescription_scored .name ht
  exact ⟨t, c, ofDescription_scored, ht, hc, hresolve t, haccum⟩

end FixedNet

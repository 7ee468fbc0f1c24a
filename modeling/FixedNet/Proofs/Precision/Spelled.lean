import FixedNet.Proofs.Precision.Entries

namespace FixedNet

open Text

namespace Setting

/-- A name that stays as it is where a key is cut into segments. -/
structure IsSegment (name : String) : Prop where
  no_point : '.' ∉ name.toList
  trimmed : IsTrimmed name.toList

/-- A layer of this name can be spelled in keys. -/
structure Addressable (name : String) : Prop extends IsSegment name where
  ne_empty : name ≠ ""

variable {key name : String} {segs front rest : List String} {s : Setting}

theorem isSegment_of_all (h : name.toList.all (fun c ↦ !isBlank c && c != '.') = true) : IsSegment name := by
  have hall : ∀ c ∈ name.toList, isBlank c = false ∧ c ≠ '.' := by simpa using h
  exact ⟨fun hmem ↦ (hall _ hmem).2 rfl, isTrimmed_of_forall fun c hc ↦ (hall c hc).1⟩

theorem isSegment_slotName (slot : Slot) : IsSegment slot.name := by
  apply isSegment_of_all
  cases slot <;> decide

theorem segments_of_intercalate (hne : segs ≠ []) (hsegs : ∀ name ∈ segs, IsSegment name)
    (hkey : key.toList = ['.'].intercalate (segs.map String.toList)) : segments key = segs := by
  have hsplit : splitAll '.' key.toList = segs.map String.toList := by
    rw [hkey]
    apply splitAll_intercalate
    · simpa using hne
    · simpa using fun name hname ↦ (hsegs name hname).no_point
  rw [segments, hsplit, List.map_map]
  refine (List.map_congr_left fun name hname ↦ ?_).trans (List.map_id segs)
  simp [(hsegs name hname).trimmed.trim_eq]

theorem isSegment_of_mem_segments (h : name ∈ segments key) : IsSegment name := by
  obtain ⟨piece, hpiece, rfl⟩ := List.mem_map.mp h
  constructor
  · intro hpoint
    rw [String.toList_ofList] at hpoint
    exact not_mem_of_mem_splitAll hpiece (trim_subset piece hpoint)
  · rw [String.toList_ofList]
    exact isTrimmed_trim piece

def target : Setting → Option String
  | default => none
  | format scope _ => scope
  | field scope _ _ => scope
  | tableSize scope => scope

theorem Spells.exists_namesScope (h : Spells segs s) :
    ∃ front rest, segs = front ++ rest ∧ NamesScope front s.target := by
  cases h with
  | default hfront => exact ⟨_, _, rfl, hfront⟩
  | result hfront => exact ⟨_, _, rfl, hfront⟩
  | format hfront => exact ⟨_, _, rfl, hfront⟩
  | expTable hfront => exact ⟨_, _, rfl, hfront⟩
  | invTable hfront => exact ⟨_, _, rfl, hfront⟩
  | field hfront => exact ⟨_, _, rfl, hfront⟩
  | tableSize hfront => exact ⟨_, _, rfl, hfront⟩

theorem Spells.addressable (h : Spells (segments key) s) (hname : s.target = some name) : Addressable name := by
  obtain ⟨front, rest, hsegs, hfront⟩ := h.exists_namesScope
  rw [hname] at hfront
  cases hfront with
  | layer hword hempty =>
    have hmem : name ∈ segments key := by simp [hsegs]
    exact ⟨isSegment_of_mem_segments hmem, hempty⟩

end Setting

namespace Entry

open Setting

def key : Entry → String
  | format layer slot _ => "LayerName." ++ layer ++ ".Precision." ++ slot.name
  | tableSize layer _ => "LayerName." ++ layer ++ ".table_size"

def value : Entry → String
  | format _ _ f => f.text
  | tableSize _ size => toString size

def call (e : Entry) : String × String := (e.key, e.value)

/-- An entry that can be set by its key and value. -/
inductive Writable : Entry → Prop
  | format {layer : String} (slot : Slot) (f : Format) : Addressable layer → Writable (format layer slot f)
  | tableSize {layer : String} {size : ℕ} :
      Addressable layer → 0 < size → size < 2 ^ 64 → Writable (tableSize layer size)

variable {e : Entry}

theorem spells_key (h : e.Writable) : Spells (segments e.key) e.setting := by
  cases h with
  | @format layer slot f hlayer =>
    have hfront : NamesScope ["LayerName", layer] (some layer) := .layer (.inl rfl) hlayer.ne_empty
    have hsegments : segments (key (format layer slot f)) = ["LayerName", layer, "Precision", slot.name] := by
      apply segments_of_intercalate
      · simp
      · have hword : IsSegment "LayerName" ∧ IsSegment "Precision" :=
          ⟨isSegment_of_all (by decide), isSegment_of_all (by decide)⟩
        simp [hword, hlayer.toIsSegment, isSegment_slotName]
      · simp [key, List.intercalate_cons_cons]
    rw [hsegments]
    exact Spells.format hfront (Slot.read?_name slot)
  | @tableSize layer size hlayer =>
    have hfront : NamesScope ["LayerName", layer] (some layer) := .layer (.inl rfl) hlayer.ne_empty
    have hsegments : segments (key (tableSize layer size)) = ["LayerName", layer, "table_size"] := by
      apply segments_of_intercalate
      · simp
      · have hword : IsSegment "LayerName" ∧ IsSegment "table_size" :=
          ⟨isSegment_of_all (by decide), isSegment_of_all (by decide)⟩
        simp [hword, hlayer.toIsSegment]
      · simp [key, List.intercalate_cons_cons]
    rw [hsegments]
    exact Spells.tableSize hfront

theorem isTrimmed_value (e : Entry) : IsTrimmed e.value.toList := by
  cases e with
  | format layer slot f => exact Format.isTrimmed_spelled ..
  | tableSize layer size =>
    rw [value, toList_toString]
    exact isTrimmed_of_forall fun c hc ↦ isBlank_of_isDigit (isDigit_of_mem_toDigits hc)

theorem assigned_value (h : e.Writable) (c : Config) : Config.Assigned c e.value e.setting (e.put c) := by
  cases h with
  | @format layer slot f => exact .format (some layer) slot (Format.read_text f)
  | @tableSize layer size hlayer hpos hlt =>
    refine .tableSize (some layer) ?_ hpos.ne'
    rw [value, toList_toString]
    exact readUnsigned_toDigits hlt

end Entry

namespace Config

open Setting

variable {c c' : Config} {e : Entry} {es : List Entry} {calls : List (String × String)} {key value name : String}
  {s : Setting}

theorem set_call (h : e.Writable) (c : Config) : c.set e.key e.value = (e.put c, .ok ()) := by
  rw [set_eq_of_spells (Entry.spells_key h), e.isTrimmed_value.trim_eq, String.ofList_toList]
  exact assign_eq_ok_iff.mpr (Entry.assigned_value h c)

theorem setAll_calls (h : ∀ e ∈ es, e.Writable) (c : Config) :
    c.setAll (es.map Entry.call) = (es.foldl Entry.put c, .ok ()) := by
  induction es generalizing c with
  | nil => rfl
  | cons e es ih =>
    rw [List.map_cons, Entry.call, setAll, set_call (h e (by simp)) c]
    exact ih (fun e' he' ↦ h e' (by simp [he'])) (e.put c)

theorem Assigned.mem_layers (h : Assigned c value s c') (hname : name ∈ c'.layers) :
    s.target = some name ∨ name ∈ c.layers := by
  cases h with
  | default => exact .inr hname
  | format scope slot => exact mem_layers_modifyScope.mp hname
  | field scope slot => exact mem_layers_modifyScope.mp hname
  | tableSize scope => exact mem_layers_modifyScope.mp hname

theorem addressable_of_set (h : c.set key value = (c', .ok ())) (hname : name ∈ c'.layers) :
    Addressable name ∨ name ∈ c.layers := by
  cases hread : Setting.read key with
  | error e =>
    rw [set, hread] at h
    cases h
  | ok s =>
    have hspells := read_eq_ok_iff.mp hread
    rw [set_eq_of_spells hspells] at h
    exact ((assign_eq_ok_iff.mp h).mem_layers hname).imp_left hspells.addressable

theorem Says.writable (h : c.Says e) (hsizes : c.SizesValid) (hlayer : Addressable e.layer) : e.Writable := by
  cases e with
  | format layer slot f => exact .format slot f hlayer
  | tableSize layer size =>
    obtain ⟨hpos, hlt⟩ := hsizes (some layer) size h
    exact .tableSize hlayer hpos hlt

theorem addressable_of_setAll (h : c.setAll calls = (c', .ok ())) (hname : name ∈ c'.layers) :
    Addressable name ∨ name ∈ c.layers := by
  induction calls generalizing c with
  | nil =>
    cases h
    exact .inr hname
  | cons call calls ih =>
    unfold setAll at h
    split at h
    case h_1 c₁ hset =>
      rcases ih h with haddressable | hname
      · exact .inl haddressable
      · exact addressable_of_set hset hname
    case h_2 hfailed => exact absurd h (hfailed c')

end Config

/-- A scope that names a format for the result, no other than whole formats, and no size that a table cannot have. -/
structure Scope.Itemized (scope : Scope) : Prop where
  whole : ∀ slot o, scope.overrides.get slot = some o → ∃ f, o = .whole f
  result : ∃ f, scope.overrides.get .result = some (.whole f)
  sizeValid : scope.SizeValid

theorem Layer.itemized_of_exportScope {n : ℕ} {layer : Layer n} {base : Format} {scope : Scope}
    (h : layer.exportScope base = .ok scope) : scope.Itemized := by
  obtain ⟨derived, hderived, -⟩ := bind_eq_ok_iff.mp h
  obtain ⟨size, hsize, hexport⟩ := exists_exportScope hderived base
  cases h.symm.trans hexport
  have hget := get_spellOut_fillDefaults derived base layer.operandSlots
  have hresult : Slot.result ∈ layer.operandSlots := by
    cases hop : layer.op <;> simp [operandSlots, Op.requiredSlots, hop]
  refine ⟨fun slot o ho ↦ ?_, ⟨_, by rw [hget, if_pos hresult]⟩, fun entries hentries ↦ ?_⟩
  · rw [hget] at ho
    split at ho
    · exact ⟨_, (Option.some.inj ho).symm⟩
    · cases ho
  · rw [hsize entries hentries]
    decide

namespace Config

variable {c : Config} {scope : Scope}

theorem mem_layers_setScope {name name' : String} :
    name' ∈ (c.setScope (some name) scope).layers ↔ name = name' ∨ name' ∈ c.layers :=
  (mem_layers_modifyScope (f := fun _ ↦ scope)).trans (or_congr_left Option.some_inj)

theorem Itemized.setScope (h : c.Itemized) (hscope : scope.Itemized) (name : String) :
    (c.setScope (some name) scope).Itemized where
  default_eq := h.default_eq
  model_eq := h.model_eq
  whole name' slot o ho := by
    rw [scope_setScope] at ho
    split at ho
    · exact hscope.whole slot o ho
    · exact h.whole name' slot o ho
  inhabited name' hname := by
    by_cases heq : name' = name
    · obtain ⟨f, hf⟩ := hscope.result
      refine ⟨.format name' .result f, rfl, ?_⟩
      rw [Says, scope_setScope]
      exact (if_pos (congrArg some heq)).symm ▸ hf
    · have hother : some name' ≠ some name := by simpa using heq
      obtain ⟨e, rfl, hsaid⟩ := h.inhabited name' ((mem_layers_setScope.mp hname).resolve_left (Ne.symm heq))
      refine ⟨e, rfl, ?_⟩
      rw [Says, scope_setScope, if_neg hother]
      exact hsaid

theorem itemized_of_foldlM {n : ℕ} {layers : List (Layer n)} (h : layers.foldlM (fun c layer ↦ do
      let scope ← layer.exportScope c.default
      return c.setScope (some layer.name) scope) ({} : Config) = .ok c) :
    c.Itemized ∧ c.SizesValid ∧ ∀ name, name ∈ c.layers ↔ name ∈ layers.map Layer.name := by
  induction layers using List.reverseRecOn generalizing c with
  | nil =>
    cases h
    refine ⟨itemized_empty, Built.default.sizesValid, fun name ↦ ?_⟩
    simp
  | append_singleton layers layer ih =>
    rw [List.foldlM_append] at h
    obtain ⟨c₁, hc₁, h⟩ := bind_eq_ok_iff.mp h
    rw [List.foldlM_cons, bind_eq_ok_iff] at h
    simp only [List.foldlM_nil, bind_eq_ok_iff, pure_eq_ok_iff] at h
    obtain ⟨_, ⟨scope, hscope, rfl⟩, rfl⟩ := h
    obtain ⟨hitemized, hsizes, hnamed⟩ := ih hc₁
    have hscope := Layer.itemized_of_exportScope hscope
    refine ⟨hitemized.setScope hscope layer.name, hsizes.setScope (some layer.name) hscope.sizeValid, fun name ↦ ?_⟩
    rw [List.map_append, List.mem_append, ← hnamed, or_comm]
    exact mem_layers_setScope.trans (or_congr_left (by simp [eq_comm]))

end Config

namespace Graph

variable {g : Graph} {c : Config}

theorem itemized_of_exportConfig (h : g.exportConfig .name = .ok c) : c.Itemized ∧ c.SizesValid ∧
    ∀ name, name ∈ c.layers ↔ ∃ i, (g.layer i).name = name := by
  obtain ⟨hitemized, hsizes, hnamed⟩ := Config.itemized_of_foldlM h
  refine ⟨hitemized, hsizes, fun name ↦ ?_⟩
  rw [hnamed, List.mem_map]
  constructor
  · rintro ⟨layer, hlayer, rfl⟩
    obtain ⟨k, hk, rfl⟩ := Vector.getElem_of_mem (Vector.mem_toList_iff.mp hlayer)
    exact ⟨⟨k, hk⟩, rfl⟩
  · rintro ⟨i, rfl⟩
    exact ⟨g.layer i, g.layer_mem_toList i, rfl⟩

/-- An exported configuration is brought back by its entries, in any order, where all layers can be addressed, and by no
settings at all where one cannot. -/
theorem exportConfig_spelled (h : g.exportConfig .name = .ok c) :
    ((∀ i, Setting.Addressable (g.layer i).name) →
      ∀ es : List Entry, es.Perm c.entries → ({} : Config).setAll (es.map Entry.call) = (c, .ok ())) ∧
    ∀ calls, ({} : Config).setAll calls = (c, .ok ()) → ∀ i, Setting.Addressable (g.layer i).name := by
  obtain ⟨hitemized, hsizes, hnamed⟩ := itemized_of_exportConfig h
  constructor
  · intro hnames es hes
    have hsaid (e : Entry) : e ∈ es ↔ c.Says e := hes.mem_iff.trans Config.mem_entries_iff
    have hwritable : ∀ e ∈ es, e.Writable := by
      intro e he
      obtain ⟨i, hi⟩ := (hnamed e.layer).mp ((hsaid e).mp he).mem_layers
      exact ((hsaid e).mp he).writable hsizes (hi ▸ hnames i)
    rw [Config.setAll_calls hwritable, hitemized.foldl_put hsaid]
  · intro calls hcalls i
    rcases Config.addressable_of_setAll hcalls ((hnamed _).mpr ⟨i, rfl⟩) with haddressable | hmem
    · exact haddressable
    · exact absurd hmem Std.ExtTreeMap.not_mem_empty

theorem exportConfig_spelled_scored : ∃ c, scoredGraph.exportConfig .name = .ok c ∧
    Entry.tableSize "score" 1024 ∈ c.entries ∧ c.entries.length = 9 ∧
      ({} : Config).setAll (c.entries.map Entry.call) = (c, .ok ()) ∧
        ({} : Config).setAll (c.entries.reverse.map Entry.call) = (c, .ok ()) := by
  obtain ⟨c, hc⟩ : ∃ c, scoredGraph.exportConfig .name = .ok c := ⟨_, rfl⟩
  have hnames (i : Fin 3) : Setting.Addressable (scoredGraph.layer i).name := by
    refine ⟨Setting.isSegment_of_all ?_, ?_⟩ <;> revert i <;> decide
  obtain ⟨hspelled, -⟩ := exportConfig_spelled hc
  refine ⟨c, hc, ?_, ?_, hspelled hnames c.entries (.refl _), hspelled hnames c.entries.reverse (List.reverse_perm _)⟩
  · cases hc
    exact Config.mem_entries_iff.mpr rfl
  · cases hc
    rfl

def pointed : Description := [⟨"block.x", [], .input 1⟩]

def pointedGraph : Graph := ⟨1, #v[⟨"block.x", .input, [], 1⟩], [0], 0, 0⟩

/-- The layer has a format, but not one that its key would set. -/
theorem exportConfig_not_spelled : ∃ c, Graph.ofDescription pointed = .ok pointedGraph ∧
    pointedGraph.exportConfig .name = .ok c ∧ c.entries = [.format "block.x" .result Inhabited.default] ∧
      ({} : Config).setAll (c.entries.map Entry.call) =
        ({}, .error (.unknownKey "LayerName.block.x.Precision.result")) := ⟨_, rfl, rfl, rfl, rfl⟩

end Graph

end FixedNet

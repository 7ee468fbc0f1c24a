import FixedNet.Proofs.Numeric.Written
import FixedNet.Proofs.Precision.LastWrite

namespace FixedNet

namespace Override

variable {o : Override} {f f' : Format}

theorem whole_inj : whole f = whole f' ↔ f = f' := by
  obtain ⟨_, _, _, _, _, _, _⟩ := f
  obtain ⟨_, _, _, _, _, _, _⟩ := f'
  simp [whole]

theorem format?_whole (f : Format) : (whole f).format? = some f := by
  have hmake : Format.make f.total f.integer f.signed = .ok ((f.withRounding .down).withOverflow .wrap) :=
    Format.make_eq_ok_iff.mpr ⟨rfl, rfl, rfl, rfl, rfl⟩
  simp only [format?, whole, Option.bind_eq_bind, Option.bind_some, hmake]
  rfl

theorem format?_eq_some_iff : o.format? = some f ↔ o = whole f := by
  refine ⟨fun h ↦ ?_, fun h ↦ h ▸ format?_whole f⟩
  simp only [format?, Option.bind_eq_bind, Option.bind_eq_some_iff, toOption_eq_some_iff] at h
  obtain ⟨_, htotal, _, hinteger, _, hsigned, base, hmake, _, hrounding, _, hoverflow, h⟩ := h
  obtain ⟨rfl, rfl, rfl, -, -⟩ := Format.fields_of_make hmake
  cases h
  exact Override.ext htotal hinteger hsigned hrounding hoverflow

end Override

/-- What a configuration says of a layer. -/
inductive Entry
  | format (layer : String) (slot : Slot) (f : Format)
  | tableSize (layer : String) (size : ℕ)

namespace Entry

def layer : Entry → String
  | format layer _ _ => layer
  | tableSize layer _ => layer

def setting : Entry → Setting
  | format layer slot _ => .format (some layer) slot
  | tableSize layer _ => .tableSize (some layer)

theorem layer_eq_of_setting {e e' : Entry} (h : e'.setting = e.setting) : e'.layer = e.layer := by
  cases e <;> cases e' <;> simp_all [setting, layer]

def write (s : Scope) : Entry → Scope
  | format _ slot f => s.setOverride slot (.whole f)
  | tableSize _ size => { s with tableSize := some size }

def put (c : Config) (e : Entry) : Config := c.modifyScope (some e.layer) e.write

end Entry

theorem SlotMap.mem_toList_iff {α : Type} {m : SlotMap α} {p : Slot} {a : α} :
    (p, a) ∈ m.toList ↔ m.get p = some a := by
  have hp : p ∈ Slot.all := by cases p <;> decide
  simp [toList, hp]

namespace Scope

variable {s : Scope} {e e' : Entry}

def entries (s : Scope) (layer : String) : List Entry :=
  (s.overrides.toList.filterMap fun entry ↦ entry.2.format?.map (Entry.format layer entry.1)) ++
    s.tableSize.toList.map (Entry.tableSize layer)

def Says (s : Scope) : Entry → Prop
  | .format _ slot f => s.overrides.get slot = some (.whole f)
  | .tableSize _ size => s.tableSize = some size

theorem mem_entries_iff {layer : String} : e ∈ s.entries layer ↔ e.layer = layer ∧ s.Says e := by
  unfold entries
  rw [List.mem_append, List.mem_filterMap, List.mem_map]
  constructor
  · rintro (⟨⟨slot, o⟩, hslot, hformat⟩ | ⟨size, hsize, rfl⟩)
    · obtain ⟨f, hf, rfl⟩ := Option.map_eq_some_iff.mp hformat
      obtain rfl : o = .whole f := Override.format?_eq_some_iff.mp hf
      exact ⟨rfl, SlotMap.mem_toList_iff.mp hslot⟩
    · exact ⟨rfl, Option.mem_toList.mp hsize⟩
  · rintro ⟨rfl, hsaid⟩
    cases e with
    | format layer slot f =>
      exact .inl ⟨(slot, .whole f), SlotMap.mem_toList_iff.mpr hsaid, by rw [Override.format?_whole]; rfl⟩
    | tableSize layer size => exact .inr ⟨size, Option.mem_toList.mpr hsaid, rfl⟩

theorem says_write_iff (hlayer : e'.layer = e.layer) :
    (e.write s).Says e' ↔ e' = e ∨ e'.setting ≠ e.setting ∧ s.Says e' := by
  cases e <;> cases e' <;> cases hlayer
  case format.format layer slot f slot' f' =>
    change (s.overrides.set slot (some (.whole f))).get slot' = some (.whole f') ↔ _
    rw [SlotMap.get_set]
    by_cases hslot : slot = slot'
    · subst hslot
      simp [Entry.setting, Override.whole_inj, eq_comm]
    · simp [Entry.setting, Says, hslot, Ne.symm hslot]
  case tableSize.tableSize layer size size' => simp [Entry.write, Entry.setting, Says, eq_comm]
  case format.tableSize => simp [Entry.write, Entry.setting, Says, setOverride]
  case tableSize.format => simp [Entry.write, Entry.setting, Says]

theorem get_write {slot : Slot} {o : Override} (h : (e.write s).overrides.get slot = some o) :
    (∃ f, o = .whole f) ∨ s.overrides.get slot = some o := by
  cases e with
  | format layer slot' f =>
    rw [Entry.write, setOverride, SlotMap.get_set] at h
    split at h
    · exact .inl ⟨f, (Option.some.inj h).symm⟩
    · exact .inr h
  | tableSize layer size => exact .inr h

end Scope

namespace Config

def entries (c : Config) : List Entry := c.layers.toList.flatMap fun layer ↦ layer.2.entries layer.1

def Says (c : Config) (e : Entry) : Prop := (c.scope (some e.layer)).Says e

variable {c c' : Config} {e e' : Entry} {es : List Entry}

theorem not_says_empty : ¬({} : Scope).Says e := by
  cases e with
  | format layer slot f => exact fun h ↦ absurd (h.symm.trans (SlotMap.get_empty slot)) nofun
  | tableSize layer size => exact nofun

theorem mem_entries_iff : e ∈ c.entries ↔ c.Says e := by
  unfold entries
  rw [List.mem_flatMap]
  constructor
  · rintro ⟨⟨layer, s⟩, hlayer, he⟩
    obtain ⟨rfl, hsaid⟩ := Scope.mem_entries_iff.mp he
    have hs : c.layers[e.layer]? = some s := Std.ExtTreeMap.mem_toList_iff_getElem?_eq_some.mp hlayer
    rw [Says, scope_some, hs]
    exact hsaid
  · intro hsaid
    rw [Says, scope_some] at hsaid
    cases hs : c.layers[e.layer]? with
    | none =>
      rw [hs] at hsaid
      exact absurd hsaid not_says_empty
    | some s =>
      rw [hs] at hsaid
      have hmem : (e.layer, s) ∈ c.layers.toList := Std.ExtTreeMap.mem_toList_iff_getElem?_eq_some.mpr hs
      exact ⟨(e.layer, s), hmem, Scope.mem_entries_iff.mpr ⟨rfl, hsaid⟩⟩

theorem Says.eq_of_setting (h : c.Says e) (h' : c.Says e') (hsetting : e.setting = e'.setting) : e = e' := by
  cases e <;> cases e' <;> cases hsetting
  case format =>
    have hwhole := Option.some.inj (h.symm.trans h')
    rw [Override.whole_inj.mp hwhole]
  case tableSize =>
    rw [Option.some.inj (h.symm.trans h')]

theorem says_put_iff : (e.put c).Says e' ↔ e' = e ∨ e'.setting ≠ e.setting ∧ c.Says e' := by
  unfold Says Entry.put
  rw [modifyScope, scope_setScope]
  split
  case isTrue hlayer =>
    have hlayer := Option.some.inj hlayer
    rw [Scope.says_write_iff hlayer, hlayer]
  case isFalse hlayer =>
    have hne : e' ≠ e := fun heq ↦ hlayer (heq ▸ rfl)
    have hsetting : e'.setting ≠ e.setting := fun heq ↦ hlayer (Entry.layer_eq_of_setting heq ▸ rfl)
    rw [or_iff_right hne, and_iff_right hsetting]

theorem Says.mem_layers (h : c.Says e) : e.layer ∈ c.layers := by
  by_contra hmem
  rw [Says, scope_some, Std.ExtTreeMap.getElem?_eq_none hmem] at h
  exact not_says_empty h

theorem getElem?_layers_eq (c : Config) (name : String) [Decidable (name ∈ c.layers)] :
    c.layers[name]? = if name ∈ c.layers then some (c.scope (some name)) else none := by
  rw [scope_some]
  split
  case isTrue hmem =>
    obtain ⟨s, hs⟩ := Option.isSome_iff_exists.mp (Std.ExtTreeMap.mem_iff_isSome_getElem?.mp hmem)
    rw [hs]
    rfl
  case isFalse hmem => exact Std.ExtTreeMap.getElem?_eq_none hmem

/-- A configuration with nothing but entries in it. -/
structure Itemized (c : Config) : Prop where
  default_eq : c.default = Inhabited.default
  model_eq : c.model = {}
  whole : ∀ name slot o, (c.scope (some name)).overrides.get slot = some o → ∃ f, o = .whole f
  inhabited : ∀ name ∈ c.layers, ∃ e, e.layer = name ∧ c.Says e

theorem Itemized.mem_layers_iff (h : c.Itemized) {name : String} :
    name ∈ c.layers ↔ ∃ e, e.layer = name ∧ c.Says e := by
  refine ⟨h.inhabited name, ?_⟩
  rintro ⟨e, rfl, hsaid⟩
  exact hsaid.mem_layers

theorem Itemized.override_iff (h : c.Itemized) {name : String} {slot : Slot} {o : Override} :
    (c.scope (some name)).overrides.get slot = some o ↔ ∃ f, o = .whole f ∧ c.Says (.format name slot f) := by
  constructor
  · intro ho
    obtain ⟨f, rfl⟩ := h.whole name slot o ho
    exact ⟨f, rfl, ho⟩
  · rintro ⟨f, rfl, hsaid⟩
    exact hsaid

/-- Nothing but the entries tells such configurations apart. -/
theorem Itemized.ext (h : c.Itemized) (h' : c'.Itemized) (heq : ∀ e, c.Says e ↔ c'.Says e) : c = c' := by
  classical
  have hscope (name : String) : c.scope (some name) = c'.scope (some name) := by
    refine Scope.ext (SlotMap.ext_get fun slot ↦ Option.ext fun o ↦ ?_) (Option.ext fun size ↦ ?_)
    · simp only [h.override_iff, h'.override_iff, heq]
    · exact heq (.tableSize name size)
  have hlayers : c.layers = c'.layers := by
    refine Std.ExtTreeMap.ext_getElem? fun name ↦ ?_
    simp only [getElem?_layers_eq, h.mem_layers_iff, h'.mem_layers_iff, heq, hscope]
  obtain ⟨default, model, layers⟩ := c
  obtain ⟨default', model', layers'⟩ := c'
  obtain rfl : default = default' := h.default_eq.trans h'.default_eq.symm
  obtain rfl : model = model' := h.model_eq.trans h'.model_eq.symm
  obtain rfl : layers = layers' := hlayers
  rfl

theorem itemized_empty : ({} : Config).Itemized where
  default_eq := rfl
  model_eq := rfl
  whole name slot o h := by
    rw [scope_empty] at h
    exact absurd (h.symm.trans (SlotMap.get_empty slot)) nofun
  inhabited name h := absurd h Std.ExtTreeMap.not_mem_empty

theorem Itemized.put (h : c.Itemized) (e : Entry) : (e.put c).Itemized where
  default_eq := h.default_eq
  model_eq := h.model_eq
  whole name slot o ho := by
    rw [Entry.put, modifyScope, scope_setScope] at ho
    split at ho
    case isTrue =>
      obtain hwhole | ho := Scope.get_write ho
      · exact hwhole
      · exact h.whole e.layer slot o ho
    case isFalse => exact h.whole name slot o ho
  inhabited name hname := by
    rcases mem_layers_modifyScope.mp hname with hlayer | hname
    · exact ⟨e, Option.some.inj hlayer, says_put_iff.mpr (.inl rfl)⟩
    · obtain ⟨e', rfl, hsaid⟩ := h.inhabited name hname
      by_cases hsetting : e'.setting = e.setting
      · exact ⟨e, (Entry.layer_eq_of_setting hsetting).symm, says_put_iff.mpr (.inl rfl)⟩
      · exact ⟨e', rfl, says_put_iff.mpr (.inr ⟨hsetting, hsaid⟩)⟩

theorem itemized_foldl_put (es : List Entry) : (es.foldl Entry.put {}).Itemized := by
  induction es using List.reverseRecOn with
  | nil => exact itemized_empty
  | append_singleton es last ih =>
    rw [List.foldl_concat]
    exact ih.put last

theorem says_foldl_put (hes : ∀ e ∈ es, ∀ e' ∈ es, e.setting = e'.setting → e = e') (e : Entry) :
    (es.foldl Entry.put {}).Says e ↔ e ∈ es := by
  induction es using List.reverseRecOn with
  | nil =>
    rw [List.foldl_nil, Says, scope_empty]
    simpa using not_says_empty
  | append_singleton es last ih =>
    have ih := ih fun e he e' he' ↦ hes e (by simp [he]) e' (by simp [he'])
    rw [List.foldl_concat, says_put_iff, ih, List.mem_append, List.mem_singleton, or_comm]
    constructor
    · rintro (⟨-, he⟩ | he)
      · exact .inl he
      · exact .inr he
    · rintro (he | he)
      · by_cases hsetting : e.setting = last.setting
        · exact .inr (hes e (by simp [he]) last (by simp) hsetting)
        · exact .inl ⟨hsetting, he⟩
      · exact .inr he

theorem Itemized.foldl_put (h : c.Itemized) (hes : ∀ e, e ∈ es ↔ c.Says e) : es.foldl Entry.put {} = c := by
  have hsaid := says_foldl_put fun e he e' he' ↦ ((hes e).mp he).eq_of_setting ((hes e').mp he')
  exact (itemized_foldl_put es).ext h fun e ↦ (hsaid e).trans (hes e)

end Config

end FixedNet

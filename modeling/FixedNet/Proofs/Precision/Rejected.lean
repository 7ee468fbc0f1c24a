import FixedNet.Proofs.Precision.Fields

namespace FixedNet

namespace Scope

variable (s : Scope) (p : Slot)

theorem override_setOverride_override (q : Slot) : (s.setOverride p (s.override p)).override q = s.override q := by
  unfold setOverride override
  rw [SlotMap.get_set]
  split
  case isTrue heq => rw [heq, Option.getD_some]
  case isFalse => rfl

theorem setOverride_override_eq_iff : s.setOverride p (s.override p) = s ↔ (s.overrides.get p).isSome := by
  constructor
  · intro heq
    rw [← heq, setOverride, SlotMap.get_set, if_pos rfl]
    rfl
  · intro h
    obtain ⟨o, ho⟩ := Option.isSome_iff_exists.mp h
    have hset : s.overrides.set p (some o) = s.overrides := ho ▸ s.overrides.set_get_self p
    rw [override, ho, Option.getD_some, setOverride, hset]

end Scope

/-- The layer that is looked up before the value can be refused. A table size is read first. -/
def Setting.layer (value : String) : Setting → Option String
  | default => none
  | format scope _ | field scope _ _ => scope
  | tableSize scope => if (Text.readUnsigned 64 value.toList).isSome then scope else none

namespace Config

variable {c c' : Config} {name : Option String} {f : Scope → Scope} {value : String} {s : Setting}

theorem SameFields.refl (c : Config) : c.SameFields c := ⟨rfl, fun _ ↦ rfl, fun _ _ ↦ rfl⟩

theorem sameFields_modifyScope (htable : ∀ s, (f s).tableSize = s.tableSize)
    (hoverride : ∀ s p, (f s).override p = s.override p) : c.SameFields (c.modifyScope name f) := by
  refine ⟨by cases name <;> rfl, fun name' ↦ ?_, fun name' p ↦ ?_⟩
  · rw [modifyScope, scope_setScope]
    split
    case isTrue heq => rw [heq, htable]
    case isFalse => rfl
  · rw [modifyScope, scope_setScope]
    split
    case isTrue heq => rw [heq, hoverride]
    case isFalse => rfl

theorem mem_layers_modifyScope {name' : String} :
    name' ∈ (c.modifyScope name f).layers ↔ name = some name' ∨ name' ∈ c.layers := by
  cases name with
  | none => exact ⟨.inr, fun h ↦ h.resolve_left nofun⟩
  | some name =>
    refine Std.ExtTreeMap.mem_insert.trans (or_congr_left ?_)
    rw [Std.LawfulEqCmp.compare_eq_iff_eq, Option.some_inj]

theorem modifyScope_eq_self_iff :
    c.modifyScope name f = c ↔ (∀ name', name = some name' → name' ∈ c.layers) ∧ f (c.scope name) = c.scope name := by
  constructor
  · intro heq
    constructor
    · intro name' hname
      rw [← heq]
      exact mem_layers_modifyScope.mpr (.inl hname)
    · have hscope : (c.modifyScope name f).scope name = f (c.scope name) := (scope_setScope ..).trans (if_pos rfl)
      rw [← hscope, heq]
  · rintro ⟨hmem, hf⟩
    rw [modifyScope, hf]
    cases name with
    | none => rfl
    | some name =>
      have hname : c.layers[name]? = some (c.scope (some name)) := by
        rw [scope_some, Std.ExtTreeMap.getElem?_eq_some_getElem (hmem name rfl), Option.getD_some]
      have hinsert : c.layers.insert name (c.scope (some name)) = c.layers := by
        refine Std.ExtTreeMap.ext_getElem? fun name' ↦ ?_
        rw [Std.ExtTreeMap.getElem?_insert]
        split
        case isTrue heq => rw [← Std.LawfulEqCmp.eq_of_compare heq, hname]
        case isFalse => rfl
      rw [setScope, hinsert]

/-- Everything that a refused setting brings into being is there already. -/
def Holds (c : Config) (value : String) (s : Setting) : Prop :=
  (∀ name, s.layer value = some name → name ∈ c.layers) ∧
    ∀ scope slot field, s = .field scope slot field → ((c.scope scope).overrides.get slot).isSome

def leftover (c : Config) (value : String) : Setting → Config
  | .default => c
  | .format scope _ => c.touch scope
  | .field scope slot _ => c.modifyScope scope fun s ↦ s.setOverride slot (s.override slot)
  | .tableSize scope => if (Text.readUnsigned 64 value.toList).isSome then c.touch scope else c

theorem assign_error {e : ConfigError} (h : c.assign s value = (c', .error e)) : c' = c.leftover value s := by
  cases s with
  | default | format | field =>
    unfold assign at h
    dsimp only at h
    split at h <;> cases h
    rfl
  | tableSize scope =>
    -- The size is read before the scope is looked up, but checked afterwards.
    unfold assign at h
    unfold leftover
    dsimp only at h ⊢
    split at h
    case h_1 hsize =>
      cases h
      rw [hsize]
      rfl
    case h_2 hsize =>
      unfold setTableSize at h
      split at h <;> cases h
      rw [hsize]
      rfl

theorem leftover_eq_self_iff : c.leftover value s = c ↔ c.Holds value s := by
  cases s with
  | default => exact ⟨fun _ ↦ ⟨nofun, nofun⟩, fun _ ↦ rfl⟩
  | format scope slot =>
    refine modifyScope_eq_self_iff.trans (and_congr_right fun _ ↦ ?_)
    exact ⟨fun _ ↦ nofun, fun _ ↦ rfl⟩
  | field scope slot field =>
    unfold leftover Holds Setting.layer
    dsimp only
    rw [modifyScope_eq_self_iff, Scope.setOverride_override_eq_iff]
    refine and_congr_right fun _ ↦ ?_
    constructor
    · rintro h scope slot field ⟨⟩
      exact h
    · exact fun h ↦ h scope slot field rfl
  | tableSize scope =>
    unfold leftover Holds Setting.layer
    dsimp only
    split
    case isTrue =>
      refine modifyScope_eq_self_iff.trans (and_congr_right fun _ ↦ ?_)
      exact ⟨fun _ ↦ nofun, fun _ ↦ rfl⟩
    case isFalse => exact ⟨fun _ ↦ ⟨nofun, nofun⟩, fun _ ↦ rfl⟩

theorem mem_layers_leftover {name : String} :
    name ∈ (c.leftover value s).layers ↔ s.layer value = some name ∨ name ∈ c.layers := by
  cases s with
  | default => exact ⟨.inr, fun h ↦ h.resolve_left nofun⟩
  | format scope slot => exact mem_layers_modifyScope
  | field scope slot field => exact mem_layers_modifyScope
  | tableSize scope =>
    unfold leftover Setting.layer
    dsimp only
    split
    case isTrue => exact mem_layers_modifyScope
    case isFalse => exact ⟨.inr, fun h ↦ h.resolve_left nofun⟩

theorem sameFields_leftover (c : Config) (value : String) (s : Setting) : c.SameFields (c.leftover value s) := by
  have htouch (scope : Option String) : c.SameFields (c.touch scope) :=
    sameFields_modifyScope (fun _ ↦ rfl) fun _ _ ↦ rfl
  cases s with
  | default => exact .refl c
  | format scope slot => exact htouch scope
  | field scope slot field =>
    unfold leftover
    exact sameFields_modifyScope (fun _ ↦ rfl) fun s p ↦ s.override_setOverride_override slot p
  | tableSize scope =>
    unfold leftover
    dsimp only
    split
    case isTrue => exact htouch scope
    case isFalse => exact .refl c

/-- The change from `c` to `c'` when a setting is refused for its value. All fields stay as they are, and so do all
scopes and overrides that are there; what else comes into being sets nothing. Resolution notices no more than a
new layer that the network does not have. -/
structure Refused (c : Config) (value : String) (s : Setting) (c' : Config) : Prop where
  sameFields : c.SameFields c'
  unchanged_iff : c' = c ↔ c.Holds value s
  mem_layers_iff : ∀ name, name ∈ c'.layers ↔ s.layer value = some name ∨ name ∈ c.layers
  resolve_iff : ∀ (g : Graph) (t : Typing g), g.resolve c' t = g.resolve c t ↔
    ∀ name, s.layer value = some name → name ∈ c.layers ∨ ∃ i, (g.layer i).name = name

/-- A setting that is refused for its key changes nothing; one that is refused for its value sets no field, but may
leave an empty scope behind, and then networks without that layer do not resolve. -/
theorem set_refused {key : String} {e : ConfigError} (h : c.set key value = (c', .error e)) :
    (Setting.read key = .error e ∧ c' = c) ∨
      ∃ s, Setting.read key = .ok s ∧ c.Refused (String.ofList (Text.trim value.toList)) s c' := by
  unfold set at h
  cases hread : Setting.read key with
  | error e' =>
    rw [hread] at h
    cases h
    exact .inl ⟨rfl, rfl⟩
  | ok s =>
    rw [hread] at h
    obtain rfl := assign_error h
    refine .inr ⟨s, rfl, sameFields_leftover .., leftover_eq_self_iff, fun _ ↦ mem_layers_leftover, fun g t ↦ ?_⟩
    rw [Graph.resolve_eq_iff_of_sameFields (sameFields_leftover ..) fun _ hname ↦ mem_layers_leftover.mpr (.inr hname)]
    refine forall_congr' fun name ↦ ?_
    rw [mem_layers_leftover, or_imp, and_iff_left Or.inl]

/-- A total width that is no number leaves an empty override for a layer that there is. -/
theorem set_refused_unit : ∃ c', ({} : Config).set "LayerName.unit.Precision.weight.total_bits" "eight" =
    (c', .error (.badValue "eight" "total_bits")) ∧ "unit" ∈ c'.layers ∧ c' ≠ {} ∧ ({} : Config).SameFields c' ∧
      affineGraph.resolve c' affineGraph.untyped = affineGraph.resolve {} affineGraph.untyped := by
  have hset : ({} : Config).set "LayerName.unit.Precision.weight.total_bits" "eight" =
      (({} : Config).leftover "eight" (.field (some "unit") .weight "total_bits"),
        .error (.badValue "eight" "total_bits")) := rfl
  refine ⟨_, hset, ?_⟩
  obtain ⟨hread, -⟩ | ⟨s, hread, hrefused⟩ := set_refused hset
  · cases hread
  · cases hread
    have hunit := (hrefused.mem_layers_iff "unit").mpr (.inl rfl)
    refine ⟨hunit, fun heq ↦ ?_, hrefused.sameFields, (hrefused.resolve_iff _ _).mpr ?_⟩
    · exact Std.ExtTreeMap.not_mem_empty (heq ▸ hunit)
    · rintro name ⟨⟩
      exact .inr ⟨affineGraph.output, rfl⟩

/-- A layer that the network does not have is named only by the refused setting, and the network no longer resolves. -/
theorem refused_set_breaks_resolution : ∃ c', ({} : Config).set "LayerName.y.Precision" "float<32>" =
    (c', .error (.numeric (.malformed "float<32>"))) ∧ c' ≠ {} ∧ "y" ∈ c'.layers ∧ "y" ∉ ({} : Config).layers ∧
      (affineGraph.resolve {} affineGraph.untyped).2 = .ok () ∧
      affineGraph.resolve c' affineGraph.untyped = (affineGraph.untyped, .error (.absentLayers ["y"])) := by
  have hset : ({} : Config).set "LayerName.y.Precision" "float<32>" =
      (({} : Config).leftover "float<32>" (.format (some "y") .result),
        .error (.numeric (.malformed "float<32>"))) := rfl
  have hy : "y" ∈ (({} : Config).leftover "float<32>" (.format (some "y") .result)).layers :=
    mem_layers_leftover.mpr (.inl rfl)
  have hempty : "y" ∉ ({} : Config).layers := Std.ExtTreeMap.not_mem_empty
  refine ⟨_, hset, fun heq ↦ hempty (heq ▸ hy), hy, hempty, rfl, ?_⟩
  have habsent : affineGraph.absentLayers (({} : Config).leftover "float<32>" (.format (some "y") .result)) = ["y"] :=
    rfl
  rw [← habsent]
  exact Graph.resolve_of_absent (by rw [habsent]; exact List.cons_ne_nil _ _)

end Config

end FixedNet

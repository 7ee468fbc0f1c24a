import FixedNet.Proofs.Precision.Keys
import FixedNet.Proofs.Precision.Rejected

namespace FixedNet

namespace Scope

theorem override_setOverride (s : Scope) (p q : Slot) (o : Override) :
    (s.setOverride p o).override q = if p = q then o else s.override q := by
  unfold override setOverride
  rw [SlotMap.get_set]
  split <;> rfl

end Scope

/-- Where a configuration holds a value. -/
inductive Place
  | default
  | field (scope : Option String) (slot : Slot) (field : FormatField)
  | tableSize (scope : Option String)

namespace Place

abbrev Value : Place → Type
  | default => Format
  | field _ _ f => f.Value
  | tableSize _ => ℕ

/-- What a configuration holds before anything is set. -/
def initial : (p : Place) → Option p.Value
  | default => (Format.make 16 6 true).toOption
  | field .. => none
  | tableSize _ => none

end Place

/-- A setting of a whole format addresses all of its fields. -/
inductive Setting.Addresses : Setting → Place → Prop
  | default : Addresses default .default
  | format (scope : Option String) (slot : Slot) (field : FormatField) :
      Addresses (format scope slot) (.field scope slot field)
  | field {name : String} {field : FormatField} (scope : Option String) (slot : Slot) :
      name ∈ field.names → Addresses (.field scope slot name) (.field scope slot field)
  | tableSize (scope : Option String) : Addresses (tableSize scope) (.tableSize scope)

/-- A text gives a place a value under a setting. A table without entries is no value. -/
inductive Setting.Gives (value : String) : Setting → (p : Place) → p.Value → Prop
  | default {f : Format} : Format.read value = .ok f → Gives value default .default f
  | format {f : Format} (scope : Option String) (slot : Slot) (field : FormatField) :
      Format.read value = .ok f → Gives value (format scope slot) (.field scope slot field) (f.field field)
  | field {name : String} {field : FormatField} {v : field.Value} (scope : Option String) (slot : Slot) :
      name ∈ field.names → field.read? value = some v →
      Gives value (.field scope slot name) (.field scope slot field) v
  | tableSize {size : ℕ} (scope : Option String) :
      Text.readUnsigned 64 value.toList = some size → size ≠ 0 →
      Gives value (tableSize scope) (.tableSize scope) size

namespace Setting

variable {value : String} {s : Setting} {p : Place} {v v' : p.Value}

theorem Gives.addresses (h : s.Gives value p v) : s.Addresses p := by
  cases h with
  | default => exact .default
  | format scope slot field => exact .format scope slot field
  | field scope slot hname => exact .field scope slot hname
  | tableSize scope => exact .tableSize scope

theorem Gives.unique (h : s.Gives value p v) (h' : s.Gives value p v') : v = v' := by
  cases h with
  | default hread =>
    cases h' with
    | default hread' => exact Except.ok.inj (hread.symm.trans hread')
  | format scope slot field hread =>
    cases h' with
    | format _ _ _ hread' => rw [Except.ok.inj (hread.symm.trans hread')]
  | field scope slot hname hread =>
    cases h' with
    | field _ _ _ hread' => exact Option.some.inj (hread.symm.trans hread')
  | tableSize scope hread =>
    cases h' with
    | tableSize _ hread' => exact Option.some.inj (hread.symm.trans hread')

end Setting

namespace Config

def stored (c : Config) : (p : Place) → Option p.Value
  | .default => some c.default
  | .field scope slot field => ((c.scope scope).override slot).field field
  | .tableSize scope => (c.scope scope).tableSize

variable {c c' : Config} {key value : String} {s : Setting} {p : Place}

theorem stored_empty (p : Place) : ({} : Config).stored p = p.initial := by
  cases p with
  | default => rfl
  | field scope slot field =>
    rw [stored, scope_empty]
    cases slot <;> cases field <;> rfl
  | tableSize scope =>
    rw [stored, scope_empty]
    rfl

theorem SameFields.stored_eq (h : c.SameFields c') (p : Place) : c'.stored p = c.stored p := by
  cases p with
  | default => exact congrArg some h.default_eq
  | field scope slot field => exact congrArg (Override.field · field) (h.override_eq scope slot)
  | tableSize scope => exact h.tableSize_eq scope

theorem stored_setOverride_self (scope : Option String) (slot : Slot) (o : Override) (field : FormatField) :
    (c.modifyScope scope fun s ↦ s.setOverride slot o).stored (.field scope slot field) = o.field field := by
  rw [stored, modifyScope, scope_setScope, if_pos rfl, Scope.override_setOverride, if_pos rfl]

theorem stored_setOverride_cases (scope : Option String) (slot : Slot) (o : Override) (p : Place) :
    (∃ field, p = .field scope slot field) ∨
      (c.modifyScope scope fun s ↦ s.setOverride slot o).stored p = c.stored p := by
  cases p with
  | default => exact .inr (by cases scope <;> rfl)
  | field scope' slot' field =>
    by_cases hscope : scope' = scope
    · by_cases hslot : slot = slot'
      · subst hscope hslot
        exact .inl ⟨field, rfl⟩
      · refine .inr ?_
        subst hscope
        rw [stored, modifyScope, scope_setScope, if_pos rfl, Scope.override_setOverride, if_neg hslot]
        rfl
    · refine .inr ?_
      rw [stored, modifyScope, scope_setScope, if_neg hscope]
      rfl
  | tableSize scope' =>
    refine .inr ?_
    rw [stored, modifyScope, scope_setScope]
    split
    case isTrue hscope => rw [hscope]; rfl
    case isFalse => rfl

theorem stored_tableSize_self (scope : Option String) (size : ℕ) :
    (c.modifyScope scope fun s ↦ { s with tableSize := some size }).stored (.tableSize scope) = some size := by
  rw [stored, modifyScope, scope_setScope, if_pos rfl]

theorem stored_tableSize_cases (scope : Option String) (size : ℕ) (p : Place) : p = .tableSize scope ∨
    (c.modifyScope scope fun s ↦ { s with tableSize := some size }).stored p = c.stored p := by
  cases p with
  | default => exact .inr (by cases scope <;> rfl)
  | field scope' slot field =>
    refine .inr ?_
    rw [stored, modifyScope, scope_setScope]
    split
    case isTrue hscope => rw [hscope]; rfl
    case isFalse => rfl
  | tableSize scope' =>
    by_cases hscope : scope' = scope
    · exact .inl (congrArg Place.tableSize hscope)
    · refine .inr ?_
      rw [stored, modifyScope, scope_setScope, if_neg hscope]
      rfl

/-- What a setting that is accepted makes of a configuration. -/
inductive Assigned (c : Config) (value : String) : Setting → Config → Prop
  | default {f : Format} : Format.read value = .ok f → Assigned c value .default { c with default := f }
  | format {f : Format} (scope : Option String) (slot : Slot) :
      Format.read value = .ok f →
      Assigned c value (.format scope slot) (c.modifyScope scope fun s ↦ s.setOverride slot (.whole f))
  | field {name : String} {field : FormatField} {v : field.Value} (scope : Option String) (slot : Slot) :
      name ∈ field.names → field.read? value = some v →
      Assigned c value (.field scope slot name)
        (c.modifyScope scope fun s ↦ s.setOverride slot (((c.scope scope).override slot).put field v))
  | tableSize {size : ℕ} (scope : Option String) :
      Text.readUnsigned 64 value.toList = some size → size ≠ 0 →
      Assigned c value (.tableSize scope) (c.modifyScope scope fun s ↦ { s with tableSize := some size })

theorem assign_eq_ok_iff : c.assign s value = (c', .ok ()) ↔ Assigned c value s c' := by
  constructor
  · intro h
    unfold assign at h
    cases s with
    | default =>
      dsimp only at h
      split at h <;> cases h
      case h_1 hread => exact .default (mapError_eq_ok_iff.mp hread)
    | format scope slot =>
      dsimp only at h
      split at h <;> cases h
      case h_1 hread => exact .format scope slot (mapError_eq_ok_iff.mp hread)
    | field scope slot name =>
      dsimp only at h
      split at h <;> cases h
      case h_1 hset =>
        obtain ⟨field, hname, v, hread, rfl⟩ := Override.setField_eq_ok_iff.mp hset
        exact .field scope slot hname hread
    | tableSize scope =>
      dsimp only at h
      split at h
      case h_1 => cases h
      case h_2 size hread =>
        by_cases hsize : size = 0
        · rw [hsize] at h
          cases h
        · rw [setTableSize, Scope.setTableSize, if_neg hsize] at h
          cases h
          exact .tableSize scope hread hsize
  · intro h
    cases h with
    | @default f hread =>
      have hformat : readFormat value = .ok f := mapError_eq_ok_iff.mpr hread
      simp only [assign, hformat]
    | @format f scope slot hread =>
      have hformat : readFormat value = .ok f := mapError_eq_ok_iff.mpr hread
      simp only [assign, hformat]
      rfl
    | @field name field v scope slot hname hread =>
      have hset : ((c.scope scope).override slot).setField name value =
          .ok (((c.scope scope).override slot).put field v) :=
        Override.setField_eq_ok_iff.mpr ⟨field, hname, v, hread, rfl⟩
      simp only [assign, hset]
    | @tableSize size scope hread hsize =>
      simp only [assign, hread, setTableSize, Scope.setTableSize, if_neg hsize]
      rfl

theorem Assigned.exists_gives (h : Assigned c value s c') (hp : s.Addresses p) :
    ∃ v, s.Gives value p v ∧ c'.stored p = some v := by
  cases h with
  | default hread =>
    cases hp
    exact ⟨_, .default hread, rfl⟩
  | format scope slot hread =>
    cases hp with
    | format _ _ field =>
      exact ⟨_, .format scope slot field hread, (stored_setOverride_self _ _ _ _).trans (Override.field_whole _ _)⟩
  | field scope slot hname hread =>
    cases hp with
    | field _ _ hname' =>
      obtain rfl := FormatField.eq_of_mem_names hname' hname
      exact ⟨_, .field scope slot hname hread, (stored_setOverride_self _ _ _ _).trans (Override.field_put_self _ _ _)⟩
  | tableSize scope hread hsize =>
    cases hp
    exact ⟨_, .tableSize scope hread hsize, stored_tableSize_self scope _⟩

theorem Assigned.stored_of_not_addresses (h : Assigned c value s c') (hp : ¬s.Addresses p) :
    c'.stored p = c.stored p := by
  cases h with
  | default =>
    cases p with
    | default => exact absurd .default hp
    | field scope | tableSize scope => cases scope <;> rfl
  | @format f scope slot =>
    obtain ⟨field, rfl⟩ | hstored := stored_setOverride_cases (c := c) scope slot (.whole f) p
    · exact absurd (.format scope slot field) hp
    · exact hstored
  | @field name field v scope slot hname =>
    obtain ⟨field', rfl⟩ | hstored :=
      stored_setOverride_cases (c := c) scope slot (((c.scope scope).override slot).put field v) p
    · have hne : field' ≠ field := fun h ↦ hp (h ▸ .field scope slot hname)
      exact (stored_setOverride_self _ _ _ _).trans (Override.field_put_of_ne hne v)
    · exact hstored
  | @tableSize size scope =>
    obtain rfl | hstored := stored_tableSize_cases (c := c) scope size p
    · exact absurd (.tableSize scope) hp
    · exact hstored

theorem Assigned.stored_cases (h : Assigned c value s c') (p : Place) :
    (∃ v, s.Gives value p v ∧ c'.stored p = some v) ∨ (¬s.Addresses p ∧ c'.stored p = c.stored p) := by
  by_cases hp : s.Addresses p
  · exact .inl (h.exists_gives hp)
  · exact .inr ⟨hp, h.stored_of_not_addresses hp⟩

theorem Assigned.exists_assigned (h : Assigned c value s c') (c₁ : Config) : ∃ c₂, Assigned c₁ value s c₂ := by
  cases h with
  | default hread => exact ⟨_, .default hread⟩
  | format scope slot hread => exact ⟨_, .format scope slot hread⟩
  | field scope slot hname hread => exact ⟨_, .field scope slot hname hread⟩
  | tableSize scope hread hsize => exact ⟨_, .tableSize scope hread hsize⟩

theorem exists_assigned_of_gives {v : p.Value} (h : s.Gives value p v) (c : Config) : ∃ c', Assigned c value s c' := by
  cases h with
  | default hread => exact ⟨_, .default hread⟩
  | format scope slot field hread => exact ⟨_, .format scope slot hread⟩
  | field scope slot hname hread => exact ⟨_, .field scope slot hname hread⟩
  | tableSize scope hread hsize => exact ⟨_, .tableSize scope hread hsize⟩

def run (c : Config) (calls : List (String × String)) : Config :=
  calls.foldl (fun c call ↦ (c.set call.1 call.2).1) c

def Accepts (key value : String) : Prop := ∀ c : Config, (c.set key value).2 = .ok ()

def Addresses (key : String) (p : Place) : Prop := ∃ s, Setting.Spells (Setting.segments key) s ∧ s.Addresses p

def Writes (key value : String) (p : Place) (v : p.Value) : Prop :=
  ∃ s, Setting.Spells (Setting.segments key) s ∧ s.Gives (String.ofList (Text.trim value.toList)) p v

/-- What the last accepted one of the settings that address a place gave it, or what was there at first. -/
inductive LastWrite (calls : List (String × String)) (p : Place) : Option p.Value → Prop
  | written {earlier later : List (String × String)} {key value : String} {v : p.Value} :
      calls = earlier ++ (key, value) :: later → Accepts key value → Writes key value p v →
      (∀ call ∈ later, Accepts call.1 call.2 → ¬Addresses call.1 p) → LastWrite calls p (some v)
  | unwritten : (∀ call ∈ calls, Accepts call.1 call.2 → ¬Addresses call.1 p) → LastWrite calls p p.initial

variable {calls later : List (String × String)}

theorem set_eq_of_spells (h : Setting.Spells (Setting.segments key) s) :
    c.set key value = c.assign s (String.ofList (Text.trim value.toList)) := by
  rw [set, Setting.read_eq_ok_iff.mpr h]

theorem set_eq_ok_iff : (c.set key value).2 = .ok () ↔ Accepts key value := by
  constructor
  · intro h c₁
    cases hread : Setting.read key with
    | error e =>
      rw [set, hread] at h
      cases h
    | ok s =>
      have hspells := Setting.read_eq_ok_iff.mp hread
      rw [set_eq_of_spells hspells] at h
      have hassigned := assign_eq_ok_iff.mp (Prod.ext rfl h)
      obtain ⟨c₂, hc₂⟩ := hassigned.exists_assigned c₁
      rw [set_eq_of_spells hspells, assign_eq_ok_iff.mpr hc₂]
  · exact fun h ↦ h c

theorem stored_set_of_error {e : ConfigError} (h : (c.set key value).2 = .error e) (p : Place) :
    (c.set key value).1.stored p = c.stored p := by
  cases hread : Setting.read key with
  | error e' => rw [set, hread]
  | ok s =>
    rw [set_eq_of_spells (Setting.read_eq_ok_iff.mp hread)] at h ⊢
    generalize hassign : c.assign s (String.ofList (Text.trim value.toList)) = result at h ⊢
    obtain ⟨c', _⟩ := result
    obtain rfl : _ = Except.error e := h
    obtain rfl := assign_error hassign
    exact (sameFields_leftover c _ s).stored_eq p

theorem stored_set_of_not (h : Accepts key value → ¬Addresses key p) (c : Config) :
    (c.set key value).1.stored p = c.stored p := by
  cases hset : (c.set key value).2 with
  | error e => exact stored_set_of_error hset p
  | ok =>
    have haddress := h (set_eq_ok_iff.mp hset)
    cases hread : Setting.read key with
    | error e => rw [set, hread]
    | ok s =>
      have hspells := Setting.read_eq_ok_iff.mp hread
      rw [set_eq_of_spells hspells] at hset ⊢
      obtain ⟨v, hgives, -⟩ | ⟨-, hstored⟩ := (assign_eq_ok_iff.mp (Prod.ext rfl hset)).stored_cases p
      · exact absurd ⟨s, hspells, hgives.addresses⟩ haddress
      · exact hstored

theorem stored_set_of_writes {v : p.Value} (h : Writes key value p v) (c : Config) :
    (c.set key value).1.stored p = some v := by
  obtain ⟨s, hspells, hgives⟩ := h
  obtain ⟨c', hassigned⟩ := exists_assigned_of_gives hgives c
  rw [set_eq_of_spells hspells, assign_eq_ok_iff.mpr hassigned]
  obtain ⟨v', hgives', hstored⟩ | ⟨haddress, -⟩ := hassigned.stored_cases p
  · rw [hstored, hgives.unique hgives']
  · exact absurd hgives.addresses haddress

theorem exists_writes_of_accepts (h : Accepts key value) (haddress : Addresses key p) : ∃ v, Writes key value p v := by
  obtain ⟨s, hspells, hs⟩ := haddress
  have hset := h {}
  rw [set_eq_of_spells hspells] at hset
  obtain ⟨v, hgives, -⟩ | ⟨hnot, -⟩ := (assign_eq_ok_iff.mp (Prod.ext rfl hset)).stored_cases p
  · exact ⟨v, s, hspells, hgives⟩
  · exact absurd hs hnot

theorem stored_run_of_not (h : ∀ call ∈ later, Accepts call.1 call.2 → ¬Addresses call.1 p) (c : Config) :
    (c.run later).stored p = c.stored p := by
  induction later generalizing c with
  | nil => rfl
  | cons call later ih =>
    change ((c.set call.1 call.2).1.run later).stored p = _
    rw [ih fun call' hcall ↦ h call' (List.mem_cons_of_mem call hcall), stored_set_of_not (h call List.mem_cons_self)]

theorem exists_lastWrite (calls : List (String × String)) (p : Place) : ∃ o, LastWrite calls p o := by
  induction calls using List.reverseRecOn with
  | nil => exact ⟨_, .unwritten nofun⟩
  | append_singleton calls call ih =>
    by_cases hcall : Accepts call.1 call.2 ∧ Addresses call.1 p
    · obtain ⟨v, hv⟩ := exists_writes_of_accepts hcall.1 hcall.2
      exact ⟨_, .written rfl hcall.1 hv nofun⟩
    · rw [not_and] at hcall
      obtain ⟨_, hlast⟩ := ih
      cases hlast with
      | @written earlier later key value v hcalls haccepts hv hlater =>
        have hcalls' : calls ++ [call] = earlier ++ (key, value) :: (later ++ [call]) := by
          rw [hcalls, List.append_assoc, List.cons_append]
        refine ⟨_, .written hcalls' haccepts hv ?_⟩
        intro call' hcall'
        rcases List.mem_append.mp hcall' with hcall' | hcall'
        · exact hlater call' hcall'
        · rw [List.mem_singleton.mp hcall']
          exact hcall
      | unwritten h =>
        refine ⟨_, .unwritten ?_⟩
        intro call' hcall'
        rcases List.mem_append.mp hcall' with hcall' | hcall'
        · exact h call' hcall'
        · rw [List.mem_singleton.mp hcall']
          exact hcall

theorem LastWrite.stored_eq {o : Option p.Value} (h : LastWrite calls p o) :
    (({} : Config).run calls).stored p = o := by
  cases h with
  | @written earlier later key value v hcalls haccepts hv hlater =>
    rw [hcalls, run, List.foldl_append]
    change (((run {} earlier).set key value).1.run later).stored p = _
    rw [stored_run_of_not hlater, stored_set_of_writes hv]
  | unwritten h => rw [stored_run_of_not h, stored_empty]

/-- After any settings each place holds what the last accepted one that addresses it gave it. Which settings are
accepted does not depend on the configuration, and refused ones change nothing that is held. -/
theorem run_lastWrite (calls : List (String × String)) :
    (∀ p o, (({} : Config).run calls).stored p = o ↔ LastWrite calls p o) ∧
      (∀ (c : Config) key value, (c.set key value).2 = .ok () ↔ Accepts key value) ∧
      ∀ (c : Config) key value e p, (c.set key value).2 = .error e → (c.set key value).1.stored p = c.stored p := by
  refine ⟨fun p o ↦ ⟨?_, LastWrite.stored_eq⟩, fun _ _ _ ↦ set_eq_ok_iff, fun _ _ _ _ p h ↦ stored_set_of_error h p⟩
  rintro rfl
  obtain ⟨o, hlast⟩ := exists_lastWrite calls p
  rw [hlast.stored_eq]
  exact hlast

/-- A layer is given a whole format, then one field by another name, and then a value that is none. -/
theorem run_lastWrite_unit :
    let calls := [("LayerName.unit.Precision", "ufixed<8,3,RND,SAT>"), ("NAME. unit .Precision.result.width", " 12 "),
      ("LayerName.unit.Precision.result.total_bits", "eight"), ("model.table_size", "0")]
    LastWrite calls (.field (some "unit") .result .total) (some (12 : ℕ)) ∧
      LastWrite calls (.field (some "unit") .result .integer) (some (3 : ℤ)) ∧
      LastWrite calls (.tableSize none) none ∧
      (({} : Config).set "LayerName.unit.Precision.result.total_bits" "eight").2 =
        .error (.badValue "eight" "total_bits") ∧
      (({} : Config).set "LayerName.unit.Precision.result.total_bits" "eight").1.stored
        (.field (some "unit") .result .total) = none := by
  intro calls
  obtain ⟨hlast, -, hrefused⟩ := run_lastWrite calls
  exact ⟨(hlast _ _).mp rfl, (hlast _ _).mp rfl, (hlast _ _).mp rfl, rfl, hrefused {} _ _ _ _ rfl⟩

end Config

end FixedNet

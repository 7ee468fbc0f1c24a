import FixedNet.Precision.Config
import FixedNet.Proofs.Outcome

namespace FixedNet

theorem toOption_eq_some_iff {ε α : Type} {x : Except ε α} {a : α} : x.toOption = some a ↔ x = .ok a := by
  cases x <;> simp [Except.toOption]

/-- The fields of a format. -/
inductive FormatField
  | total
  | integer
  | signed
  | rounding
  | overflow
  deriving DecidableEq

namespace FormatField

abbrev Value : FormatField → Type
  | total => ℕ
  | integer => ℤ
  | signed => Bool
  | rounding => Rounding
  | overflow => Overflow

def names : FormatField → List String
  | total => ["total_bits", "width"]
  | integer => ["integer_bits", "integer"]
  | signed => ["is_signed", "signed"]
  | rounding => ["rounding_mode", "rounding"]
  | overflow => ["saturation_mode", "saturation"]

def read? (value : String) : (field : FormatField) → Option field.Value
  | total => Text.readUnsigned 32 value.toList
  | integer => Text.readSigned 32 value.toList
  | signed => readBool value.toList
  | rounding => Rounding.read? value
  | overflow => Overflow.read? value

theorem eq_of_mem_names {field field' : FormatField} {name : String} (h : name ∈ field.names)
    (h' : name ∈ field'.names) : field' = field := by
  cases field <;> rcases List.mem_pair.mp h with rfl | rfl <;> revert h' <;> cases field' <;> decide

end FormatField

def Format.field (f : Format) : (field : FormatField) → field.Value
  | .total => f.total
  | .integer => f.integer
  | .signed => f.signed
  | .rounding => f.rounding
  | .overflow => f.overflow

namespace Override

def field (o : Override) : (field : FormatField) → Option field.Value
  | .total => o.total
  | .integer => o.integer
  | .signed => o.signed
  | .rounding => o.rounding
  | .overflow => o.overflow

def put (o : Override) : (field : FormatField) → field.Value → Override
  | .total, n => { o with total := some n }
  | .integer, n => { o with integer := some n }
  | .signed, b => { o with signed := some b }
  | .rounding, r => { o with rounding := some r }
  | .overflow, w => { o with overflow := some w }

variable {o o' : Override} {name value : String} {field field' : FormatField}

theorem field_whole (f : Format) (field : FormatField) : (whole f).field field = some (f.field field) := by
  cases field <;> rfl

theorem field_put_self (o : Override) (field : FormatField) (v : field.Value) :
    (o.put field v).field field = some v := by
  cases field <;> rfl

theorem field_put_of_ne (h : field' ≠ field) (v : field.Value) : (o.put field v).field field' = o.field field' := by
  cases field <;> cases field' <;> first | rfl | exact absurd rfl h

theorem toOption_setField (h : name ∈ field.names) :
    (o.setField name value).toOption = (field.read? value).map (o.put field) := by
  cases field <;> rcases List.mem_pair.mp h with rfl | rfl <;> unfold setField FormatField.read? <;> dsimp only
  case total.inl | total.inr => cases Text.readUnsigned 32 value.toList <;> rfl
  case integer.inl | integer.inr => cases Text.readSigned 32 value.toList <;> rfl
  case signed.inl | signed.inr => cases readBool value.toList <;> rfl
  case rounding.inl | rounding.inr => cases Rounding.read? value <;> rfl
  case overflow.inl | overflow.inr => cases Overflow.read? value <;> rfl

theorem exists_mem_names_of_setField (h : o.setField name value = .ok o') :
    ∃ field : FormatField, name ∈ field.names := by
  unfold setField at h
  dsimp only at h
  split at h
  · exact ⟨.total, .head _⟩
  · exact ⟨.total, .tail _ (.head _)⟩
  · exact ⟨.integer, .head _⟩
  · exact ⟨.integer, .tail _ (.head _)⟩
  · exact ⟨.signed, .head _⟩
  · exact ⟨.signed, .tail _ (.head _)⟩
  · exact ⟨.rounding, .head _⟩
  · exact ⟨.rounding, .tail _ (.head _)⟩
  · exact ⟨.overflow, .head _⟩
  · exact ⟨.overflow, .tail _ (.head _)⟩
  · cases h

theorem setField_eq_ok_iff :
    o.setField name value = .ok o' ↔
      ∃ field : FormatField, name ∈ field.names ∧ ∃ v, field.read? value = some v ∧ o.put field v = o' := by
  constructor
  · intro h
    obtain ⟨field, hfield⟩ := exists_mem_names_of_setField h
    rw [← toOption_eq_some_iff, toOption_setField hfield, Option.map_eq_some_iff] at h
    exact ⟨field, hfield, h⟩
  · rintro ⟨field, hfield, h⟩
    rw [← toOption_eq_some_iff, toOption_setField hfield, Option.map_eq_some_iff]
    exact h

end Override

namespace Setting

def segments (key : String) : List String := (Text.splitAll '.' key.toList).map fun s ↦ String.ofList (Text.trim s)

/-- The first segments of a key, which name a scope in any case. -/
inductive NamesScope : List String → Option String → Prop
  | model {word : String} : String.ofList (Text.lower word.toList) = "model" → NamesScope [word] none
  | layer {word name : String} :
      String.ofList (Text.lower word.toList) = "layername" ∨ String.ofList (Text.lower word.toList) = "name" →
      name ≠ "" → NamesScope [word, name] (some name)

/-- The segments that spell a setting. -/
inductive Spells : List String → Setting → Prop
  | default {front : List String} : NamesScope front none → Spells (front ++ ["Precision"]) default
  | result {front : List String} {layer : String} :
      NamesScope front (some layer) → Spells (front ++ ["Precision"]) (format (some layer) .result)
  | format {front : List String} {scope : Option String} {name : String} {slot : Slot} :
      NamesScope front scope → Slot.read? name = some slot → Spells (front ++ ["Precision", name]) (format scope slot)
  | expTable {front : List String} {scope : Option String} :
      NamesScope front scope → Spells (front ++ ["exp_table_t"]) (format scope .expTable)
  | invTable {front : List String} {scope : Option String} :
      NamesScope front scope → Spells (front ++ ["inv_table_t"]) (format scope .invTable)
  | field {front : List String} {scope : Option String} {name : String} {slot : Slot} {field : String} :
      NamesScope front scope → Slot.read? name = some slot →
      Spells (front ++ ["Precision", name, field]) (.field scope slot field)
  | tableSize {front : List String} {scope : Option String} :
      NamesScope front scope → Spells (front ++ ["table_size"]) (tableSize scope)

variable {front rest segs : List String} {scope : Option String} {key : String} {s : Setting}

theorem readScope_append (h : NamesScope front scope) (rest : List String) :
    readScope (front ++ rest) = some (scope, rest) := by
  cases h with
  | @model word hword =>
    change readScope (word :: rest) = _
    unfold readScope
    dsimp only
    rw [hword]
    rfl
  | @layer word name hword hname =>
    have hempty : ¬name.isEmpty = true := by simpa using hname
    change readScope (word :: name :: rest) = _
    unfold readScope
    dsimp only
    rcases hword with hword | hword <;> rw [hword] <;> exact if_neg hempty

theorem exists_of_readScope (h : readScope segs = some (scope, rest)) :
    ∃ front, segs = front ++ rest ∧ NamesScope front scope := by
  unfold readScope at h
  split at h
  case h_1 => cases h
  case h_2 word rest' =>
    split at h
    case h_1 hword =>
      cases h
      exact ⟨[word], rfl, .model hword⟩
    case h_2 name rest' hword =>
      split at h <;> cases h
      case isFalse hname => exact ⟨[word, name], rfl, .layer (.inl hword) (by simpa using hname)⟩
    case h_3 name rest' hword =>
      split at h <;> cases h
      case isFalse hname => exact ⟨[word, name], rfl, .layer (.inr hword) (by simpa using hname)⟩
    case h_4 => cases h

theorem slotRead_eq_ok_iff {name : String} {slot : Slot} : Slot.read name = .ok slot ↔ Slot.read? name = some slot := by
  unfold Slot.read
  cases Slot.read? name <;> simp

theorem read_eq_ok_iff : read key = .ok s ↔ Spells (segments key) s := by
  constructor
  · intro h
    unfold read at h
    dsimp only at h
    split at h
    case h_1 => cases h
    case h_9 => cases h
    all_goals
      rename_i hscope
      obtain ⟨front, hsegs, hfront⟩ := exists_of_readScope hscope
      have hsegs : segments key = _ := hsegs
      rw [hsegs]
    · cases h
      exact .default hfront
    · cases h
      exact .result hfront
    · obtain ⟨slot, hslot, rfl⟩ := map_eq_ok_iff.mp h
      exact .format hfront (slotRead_eq_ok_iff.mp hslot)
    · obtain ⟨slot, hslot, rfl⟩ := map_eq_ok_iff.mp h
      exact .field hfront (slotRead_eq_ok_iff.mp hslot)
    · cases h
      exact .expTable hfront
    · cases h
      exact .invTable hfront
    · cases h
      exact .tableSize hfront
  · intro h
    have hread {front rest : List String} {scope : Option String} (hsegs : segments key = front ++ rest)
        (hfront : NamesScope front scope) : readScope (segments key) = some (scope, rest) := by
      rw [hsegs]
      exact readScope_append hfront rest
    unfold read
    generalize hsegs : segments key = segs at h
    unfold segments at hsegs hread
    dsimp only
    cases h with
    | default hfront => rw [hread hsegs hfront]; rfl
    | result hfront => rw [hread hsegs hfront]; rfl
    | @format front scope name slot hfront hslot =>
      rw [hread hsegs hfront]
      cases scope <;> exact map_eq_ok_iff.mpr ⟨slot, slotRead_eq_ok_iff.mpr hslot, rfl⟩
    | @field front scope name slot field hfront hslot =>
      rw [hread hsegs hfront]
      cases scope <;> exact map_eq_ok_iff.mpr ⟨slot, slotRead_eq_ok_iff.mpr hslot, rfl⟩
    | @expTable front scope hfront => rw [hread hsegs hfront]; cases scope <;> rfl
    | @invTable front scope hfront => rw [hread hsegs hfront]; cases scope <;> rfl
    | @tableSize front scope hfront => rw [hread hsegs hfront]; cases scope <;> rfl

end Setting

end FixedNet

import FixedNet.Proofs.Precision.Precedence

namespace FixedNet

/-- Scopes as they come about. Overrides are free, a table size is a word of 64 bits that was accepted. -/
inductive Scope.Built : Scope → Prop
  | empty : Built {}
  | withOverrides {s : Scope} (overrides : SlotMap Override) : Built s → Built { s with overrides }
  | setTableSize {s s' : Scope} {size : ℕ} (hsize : size < 2 ^ 64) : Built s → s.setTableSize size = .ok s' → Built s'

inductive Config.Built : Config → Prop
  | default : Built {}
  | withDefault {c : Config} (f : Format) : Built c → Built { c with default := f }
  | setScope {c : Config} {s : Scope} (name : Option String) : Built c → s.Built → Built (c.setScope name s)
  | erase {c : Config} (name : String) : Built c → Built { c with layers := c.layers.erase name }
  | set {c : Config} (key value : String) : Built c → Built (c.set key value).1

/-- A table size, if there is one, is positive and a word of 64 bits. -/
def Scope.SizeValid (s : Scope) : Prop := ∀ size, s.tableSize = some size → 0 < size ∧ size < 2 ^ 64

def Config.SizesValid (c : Config) : Prop := ∀ name, (c.scope name).SizeValid

theorem Scope.sizeValid_empty : ({} : Scope).SizeValid := by
  intro size h
  cases h

theorem Scope.SizeValid.of_setTableSize {s s' : Scope} {size : ℕ} (hsize : size < 2 ^ 64)
    (h : s.setTableSize size = .ok s') : s'.SizeValid := by
  unfold setTableSize at h
  split at h
  · cases h
  · cases h
    intro size' h
    cases h
    exact ⟨by omega, hsize⟩

theorem Scope.Built.sizeValid {s : Scope} (h : s.Built) : s.SizeValid := by
  induction h with
  | empty => exact sizeValid_empty
  | withOverrides overrides _ ih => exact ih
  | setTableSize hsize _ h _ => exact .of_setTableSize hsize h

namespace Config

variable {c : Config}

theorem scope_setScope (name name' : Option String) (s : Scope) :
    (c.setScope name s).scope name' = if name' = name then s else c.scope name' := by
  cases name with
  | none => cases name' <;> rfl
  | some name =>
    cases name' with
    | none => rfl
    | some name' =>
      change (c.layers.insert name s)[name']?.getD {} = _
      rw [Std.ExtTreeMap.getElem?_insert]
      by_cases hname : name' = name
      · simp [hname]
      · rw [if_neg fun heq ↦ hname (Std.LawfulEqCmp.eq_of_compare heq).symm, if_neg (by simpa using hname)]
        rfl

theorem SizesValid.setScope (h : c.SizesValid) (name : Option String) {s : Scope} (hs : s.SizeValid) :
    (c.setScope name s).SizesValid := by
  intro name'
  rw [scope_setScope]
  split
  · exact hs
  · exact h name'

/-- Changes of a scope that leave its table size. -/
theorem SizesValid.modifyScope (h : c.SizesValid) (name : Option String) {f : Scope → Scope}
    (hf : ∀ s, (f s).tableSize = s.tableSize) : (c.modifyScope name f).SizesValid := by
  refine h.setScope name ?_
  unfold Scope.SizeValid
  rw [hf]
  exact h name

theorem SizesValid.assign (h : c.SizesValid) (s : Setting) (value : String) : (c.assign s value).1.SizesValid := by
  cases s with
  | default =>
    unfold Config.assign
    dsimp only
    split
    · exact h
    · exact h
  | format scope slot =>
    unfold Config.assign
    dsimp only
    split
    · exact h.modifyScope scope fun _ ↦ rfl
    · exact h.modifyScope scope fun _ ↦ rfl
  | field scope slot field =>
    unfold Config.assign
    dsimp only
    split
    · exact h.modifyScope scope fun _ ↦ rfl
    · exact h.modifyScope scope fun _ ↦ rfl
  | tableSize scope =>
    unfold Config.assign
    dsimp only
    split
    · exact h
    case h_2 size hsize =>
      unfold Config.setTableSize
      split
      case h_1 s hs =>
        have hlt : size < 2 ^ 64 := by simpa using (Option.filter_eq_some_iff.mp hsize).2
        exact h.setScope scope (.of_setTableSize hlt hs)
      case h_2 => exact h.modifyScope scope fun _ ↦ rfl

theorem Built.sizesValid (h : c.Built) : c.SizesValid := by
  induction h with
  | default =>
    intro name
    rw [scope_empty]
    exact Scope.sizeValid_empty
  | withDefault f _ ih => exact ih
  | setScope name _ hs ih => exact ih.setScope name hs.sizeValid
  | @erase c name _ ih =>
    intro name'
    cases name' with
    | none => exact ih none
    | some name' =>
      change ((c.layers.erase name)[name']?.getD {}).SizeValid
      rw [Std.ExtTreeMap.getElem?_erase]
      split
      · exact Scope.sizeValid_empty
      · exact ih (some name')
  | set key value _ ih =>
    unfold Config.set
    split
    · exact ih.assign _ _
    · exact ih

end Config

theorem Layer.resolveTableSize_bounds {n : ℕ} (layer : Layer n) {c : Config} (hc : c.Built) :
    0 < layer.resolveTableSize c ∧ layer.resolveTableSize c < 2 ^ 64 := by
  have hsizes := hc.sizesValid
  rw [resolveTableSize_eq]
  cases hown : (c.scope (some layer.name)).tableSize with
  | some size => exact hsizes _ size hown
  | none =>
    rw [Option.none_or]
    cases hmodel : (c.scope none).tableSize with
    | some size => exact hsizes _ size hmodel
    | none => exact ⟨by decide, by decide⟩

end FixedNet

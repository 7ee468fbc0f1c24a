import FixedNet.Proofs.Precision.Exported

namespace FixedNet

/-- Configurations that set the same fields. One may have a scope, or an override, that sets none where the other one
has no such thing. -/
structure Config.SameFields (c c' : Config) : Prop where
  default_eq : c'.default = c.default
  tableSize_eq : ∀ scope, (c'.scope scope).tableSize = (c.scope scope).tableSize
  override_eq : ∀ scope p, (c'.scope scope).override p = (c.scope scope).override p

theorem bind_congr_of_ok {ε α β : Type} {x : Except ε α} {f f' : α → Except ε β} (h : ∀ a, x = .ok a → f a = f' a) :
    x >>= f = x >>= f' := by
  cases x with
  | error => rfl
  | ok a => exact h a rfl

namespace SlotMap

variable {overrides overrides' : SlotMap Override} {allowed : List Slot} {formats formats' : SlotMap Format} {p : Slot}

theorem overridden_cons_of_get {base : Format} (h : formats.get p = some base) :
    overridden overrides (p :: allowed) formats =
      (((overrides.get p).getD {}).apply base).mapError .numeric >>= fun f ↦
        overridden overrides allowed (formats.set p (some f)) := by
  rw [overridden_cons]
  cases overrides.get p with
  | some o =>
    rw [h]
    rfl
  | none =>
    rw [Option.getD_none, Override.apply_empty]
    change _ = overridden overrides allowed (formats.set p (some base))
    rw [← h, set_get_self]

theorem isSome_set (h : (formats.get p).isSome) (q : Slot) (f : Format) : ((formats.set q (some f)).get p).isSome := by
  rw [get_set]
  split
  · rfl
  · exact h

def Covers (formats : SlotMap Format) (allowed : List Slot) : Prop := ∀ p ∈ allowed, (formats.get p).isSome

theorem overridden_congr (h : ∀ p, (overrides'.get p).getD {} = (overrides.get p).getD {})
    (hf : formats.Covers allowed) :
    overridden overrides' allowed formats = overridden overrides allowed formats := by
  induction allowed generalizing formats with
  | nil => rfl
  | cons p allowed ih =>
    obtain ⟨base, hbase⟩ := Option.isSome_iff_exists.mp (hf p List.mem_cons_self)
    rw [overridden_cons_of_get hbase, overridden_cons_of_get hbase, h p]
    refine congrArg _ (funext fun f ↦ ih fun q hq ↦ ?_)
    exact isSome_set (hf q (List.mem_cons_of_mem p hq)) p f

theorem isSome_of_overridden (h : overridden overrides allowed formats = .ok formats') (hp : (formats.get p).isSome) :
    (formats'.get p).isSome := by
  induction allowed generalizing formats with
  | nil =>
    cases h
    exact hp
  | cons q allowed ih =>
    rw [overridden_cons] at h
    split at h
    · exact ih h hp
    · obtain ⟨f, -, h⟩ := bind_eq_ok_iff.mp h
      exact ih h (isSome_set hp q f)

theorem overridden_empty (allowed : List Slot) (formats : SlotMap Format) :
    overridden {} allowed formats = .ok formats :=
  overridden_of_whole fun p _ o ho ↦ by cases p <;> cases ho

end SlotMap

namespace Layer

variable {n : ℕ} (layer : Layer n) {c c' : Config} {allowed : List Slot} {formats : SlotMap Format}

theorem overrideBoth_eq (c : Config) (name : String) (allowed : List Slot) (formats : SlotMap Format) :
    overrideBoth c.model c.layers[name]? allowed formats =
      SlotMap.overridden (c.scope none).overrides allowed formats >>=
        SlotMap.overridden (c.scope (some name)).overrides allowed := by
  refine congrArg _ (funext fun formats ↦ ?_)
  rw [Config.scope_some]
  cases c.layers[name]? with
  | some own => rfl
  | none => exact (SlotMap.overridden_empty allowed formats).symm

theorem overrideBoth_congr (h : c.SameFields c') (name : String) (hf : formats.Covers allowed) :
    overrideBoth c'.model c'.layers[name]? allowed formats = overrideBoth c.model c.layers[name]? allowed formats := by
  rw [overrideBoth_eq, overrideBoth_eq, SlotMap.overridden_congr (h.override_eq none) hf]
  refine bind_congr_of_ok fun formats' hformats' ↦ SlotMap.overridden_congr (h.override_eq (some name)) fun p hp ↦ ?_
  exact SlotMap.isSome_of_overridden hformats' (hf p hp)

theorem resolveFormats_of_sameFields (h : c.SameFields c') (inputs : List Format) :
    layer.resolveFormats c' inputs = layer.resolveFormats c inputs := by
  have hcovers (derived : SlotMap Format) :
      (derived.fillDefaults c.default layer.operandSlots).Covers layer.operandSlots := by
    intro p hp
    rw [SlotMap.get_fillDefaults, if_pos hp]
    rfl
  unfold resolveFormats
  dsimp only
  rw [h.default_eq]
  refine congrArg _ (funext fun derived ↦ ?_)
  rw [overrideBoth_congr h layer.name (hcovers derived)]
  refine congrArg _ (funext fun operands ↦ ?_)
  split
  case isFalse => rfl
  case isTrue haccum =>
    refine bind_congr_of_ok fun accum hinfer ↦ overrideBoth_congr h layer.name fun p hp ↦ ?_
    obtain ⟨base, rfl⟩ := exists_of_inferAccumulator hinfer (List.contains_iff_mem.mp haccum)
    rw [List.mem_singleton.mp hp]
    rfl

end Layer

namespace Graph

variable {g : Graph} {c c' : Config} {t : Typing g}

theorem resolveLayer_of_sameFields (h : c.SameFields c') (t : Typing g) (i : Fin g.size) :
    g.resolveLayer c' t i = g.resolveLayer c t i := by
  unfold resolveLayer
  refine congrArg _ (funext fun inputs ↦ ?_)
  rw [Layer.resolveFormats_of_sameFields _ h, Layer.resolveTableSize_eq, Layer.resolveTableSize_eq, h.tableSize_eq,
    h.tableSize_eq]

theorem resolveAlong_of_sameFields (h : c.SameFields c') (order : List (Fin g.size)) (t : Typing g) :
    g.resolveAlong c' order t = g.resolveAlong c order t := by
  induction order generalizing t with
  | nil => rfl
  | cons i order ih =>
    unfold resolveAlong
    rw [resolveLayer_of_sameFields h]
    cases g.resolveLayer c t i with
    | error e => rfl
    | ok typed => exact ih _

theorem failsAtLayer_resolveAlong (c : Config) (order : List (Fin g.size)) (t : Typing g) :
    FailsOnly ResolveError.AtLayer (g.resolveAlong c order t).2 := by
  induction order generalizing t with
  | nil => exact failsOnly_ok ()
  | cons i order ih =>
    unfold resolveAlong
    cases hi : g.resolveLayer c t i with
    | error e => exact .error (g.failsAtLayer_resolveLayer c t i e hi)
    | ok typed => exact ih _

theorem mem_absentLayers {name : String} :
    name ∈ g.absentLayers c ↔ name ∈ c.layers ∧ ∀ i, (g.layer i).name ≠ name := by
  simp [absentLayers, find?]

theorem absentLayers_congr (h : ∀ name, name ∈ g.absentLayers c' ↔ name ∈ g.absentLayers c) :
    g.absentLayers c' = g.absentLayers c := by
  have hordered (c : Config) : (g.absentLayers c).Pairwise fun a b ↦ compare a b = .lt :=
    Std.ExtTreeMap.ordered_keys.filter _
  refine List.Perm.eq_of_pairwise (fun a b _ _ hab hba ↦ ?_) (hordered c') (hordered c) ?_
  · have hswap : compare b a = (compare a b).swap := Std.OrientedCmp.eq_swap
    rw [hswap, hab] at hba
    cases hba
  · refine (List.perm_ext_iff_of_nodup ?_ ?_).mpr h
    · exact (hordered c').imp fun hlt heq ↦ by simp [heq] at hlt
    · exact (hordered c).imp fun hlt heq ↦ by simp [heq] at hlt

theorem resolve_eq_iff_of_sameFields (h : c.SameFields c') (hsub : ∀ name ∈ c.layers, name ∈ c'.layers) (t : Typing g) :
    g.resolve c' t = g.resolve c t ↔ ∀ name ∈ c'.layers, name ∈ c.layers ∨ ∃ i, (g.layer i).name = name := by
  constructor
  · intro heq name hname
    by_contra hnew
    obtain ⟨hc, hg⟩ := not_or.mp hnew
    have hmem : name ∈ g.absentLayers c' := mem_absentLayers.mpr ⟨hname, not_exists.mp hg⟩
    rw [resolve_of_absent (List.ne_nil_of_mem hmem)] at heq
    by_cases habsent : g.absentLayers c = []
    · rw [resolve_of_present habsent] at heq
      exact failsAtLayer_resolveAlong c g.order t _ (congrArg Prod.snd heq).symm
    · rw [resolve_of_absent habsent] at heq
      have hlist : g.absentLayers c' = g.absentLayers c := by simpa using heq
      exact hc (mem_absentLayers.mp (hlist ▸ hmem)).1
  · intro hnames
    have habsent : g.absentLayers c' = g.absentLayers c := absentLayers_congr fun name ↦ by
      rw [mem_absentLayers, mem_absentLayers]
      refine and_congr_left fun hg ↦ ⟨fun hname ↦ ?_, hsub name⟩
      exact (hnames name hname).resolve_right (not_exists.mpr hg)
    unfold resolve
    rw [habsent, resolveAlong_of_sameFields h]

end Graph

end FixedNet

import FixedNet.Proofs.Network.Passes
import FixedNet.Proofs.Precision.Precedence

namespace FixedNet

theorem InOrder.of_append {n : ℕ} {inputs : Fin n → List (Fin n)} {before rest : List (Fin n)}
    (h : InOrder inputs (before ++ rest)) : InOrder inputs before := by
  intro first i last heq
  exact h first i (last ++ rest) (by rw [heq, List.append_assoc, List.cons_append])

/-- An error that is found at some layer, not in the configuration as a whole. -/
def ResolveError.AtLayer : ResolveError → Prop
  | .absentLayers _ => False
  | _ => True

section FailsAtLayer

theorem FailsOnly.error {ε α : Type} {P : ε → Prop} {e : ε} (h : P e) : FailsOnly P (.error e : Except ε α) := by
  intro e' he
  cases he
  exact h

theorem failsAtLayer_mapError {ε α : Type} {x : Except ε α} (wrap : ε → ResolveError) (h : ∀ e, (wrap e).AtLayer) :
    FailsOnly ResolveError.AtLayer (x.mapError wrap) :=
  FailsOnly.mapError (fun _ _ ↦ trivial : FailsOnly (fun _ ↦ True) x) fun e _ ↦ h e

theorem Override.failsAtLayer_applyTo (o : Override) (p : Slot) (base : Option Format) :
    FailsOnly ResolveError.AtLayer (o.applyTo p base) := by
  cases base with
  | some base => exact failsAtLayer_mapError .numeric fun _ ↦ trivial
  | none =>
    unfold applyTo
    cases o.format? with
    | some f => exact failsOnly_ok f
    | none => exact .error trivial

theorem SlotMap.failsAtLayer_overridden (overrides : SlotMap Override) (allowed : List Slot)
    (formats : SlotMap Format) :
    FailsOnly ResolveError.AtLayer (overridden overrides allowed formats) := by
  induction allowed generalizing formats with
  | nil => exact failsOnly_ok _
  | cons p allowed ih =>
    rw [overridden_cons]
    cases overrides.get p with
    | none => exact ih formats
    | some o => exact (o.failsAtLayer_applyTo p _).bind fun f _ ↦ ih _

namespace Layer

variable {n : ℕ} (layer : Layer n)

theorem failsAtLayer_quantizerFormat (q : Quantizer) :
    FailsOnly ResolveError.AtLayer (layer.quantizerFormat q) :=
  failsAtLayer_mapError (fun e ↦ .quantizer layer.name (.numeric e)) fun _ ↦ trivial

theorem failsAtLayer_quantizerFormat? (q : Option Quantizer) :
    FailsOnly ResolveError.AtLayer (layer.quantizerFormat? q) := by
  cases q with
  | none => exact failsOnly_ok none
  | some q => exact (layer.failsAtLayer_quantizerFormat q).bind fun f _ ↦ failsOnly_ok _

theorem failsAtLayer_derivedFormats : FailsOnly ResolveError.AtLayer layer.derivedFormats := by
  unfold derivedFormats
  cases layer.op with
  | dense _ _ _ kernelQuantizer biasQuantizer =>
    refine (layer.failsAtLayer_quantizerFormat? kernelQuantizer).bind fun weight _ ↦ ?_
    exact (layer.failsAtLayer_quantizerFormat? biasQuantizer).bind fun bias _ ↦ failsOnly_ok _
  | activation function =>
    cases function with
    | quantized q => exact (layer.failsAtLayer_quantizerFormat q).bind fun result _ ↦ failsOnly_ok _
    | linear | relu => exact failsOnly_ok _
  | input | batchNorm | softmax | add | concatenate => exact failsOnly_ok _

theorem failsAtLayer_overrideBoth (model : Scope) (own : Option Scope) (allowed : List Slot)
    (formats : SlotMap Format) :
    FailsOnly ResolveError.AtLayer (overrideBoth model own allowed formats) := by
  refine (SlotMap.failsAtLayer_overridden _ _ _).bind fun formats _ ↦ ?_
  cases own with
  | some own => exact SlotMap.failsAtLayer_overridden _ _ _
  | none => exact failsOnly_ok formats

theorem failsAtLayer_operand (formats : SlotMap Format) (p : Slot) :
    FailsOnly ResolveError.AtLayer (layer.operand formats p) := by
  unfold operand
  cases formats.get p with
  | some f => exact failsOnly_ok f
  | none => exact .error trivial

theorem failsAtLayer_firstInput (inputs : List Format) : FailsOnly ResolveError.AtLayer (layer.firstInput inputs) := by
  cases inputs with
  | nil => exact .error trivial
  | cons f inputs => exact failsOnly_ok f

theorem failsAtLayer_accumulatorWidth (formats : SlotMap Format) (inputs : List Format) :
    FailsOnly ResolveError.AtLayer (layer.accumulatorWidth formats inputs) := by
  unfold accumulatorWidth
  cases layer.op with
  | dense =>
    refine (layer.failsAtLayer_operand formats .weight).bind fun weight _ ↦ ?_
    exact (layer.failsAtLayer_firstInput inputs).bind fun input _ ↦ failsOnly_ok _
  | batchNorm =>
    refine (layer.failsAtLayer_firstInput inputs).bind fun input _ ↦ ?_
    exact (layer.failsAtLayer_operand formats .scale).bind fun scale _ ↦ failsOnly_ok _
  | softmax => exact (layer.failsAtLayer_operand formats .expTable).bind fun exp _ ↦ failsOnly_ok _
  | input | activation | add | concatenate => exact failsOnly_ok _

theorem failsAtLayer_inferAccumulator (formats : SlotMap Format) (inputs : List Format) :
    FailsOnly ResolveError.AtLayer (layer.inferAccumulator formats inputs) := by
  refine (layer.failsAtLayer_accumulatorWidth formats inputs).bind fun width _ ↦ ?_
  cases width with
  | some w => exact (failsAtLayer_mapError .numeric fun _ ↦ trivial).bind fun f _ ↦ failsOnly_ok _
  | none => exact failsOnly_ok none

theorem failsAtLayer_resolveFormats (c : Config) (inputs : List Format) :
    FailsOnly ResolveError.AtLayer (layer.resolveFormats c inputs) := by
  refine layer.failsAtLayer_derivedFormats.bind fun derived _ ↦ ?_
  refine (failsAtLayer_overrideBoth _ _ _ _).bind fun operands _ ↦ ?_
  split
  · exact (layer.failsAtLayer_inferAccumulator operands inputs).bind fun accum _ ↦ failsAtLayer_overrideBoth _ _ _ _
  · exact failsOnly_ok operands

end Layer

theorem Graph.failsAtLayer_resolveLayer (g : Graph) (c : Config) (t : Typing g) (i : Fin g.size) :
    FailsOnly ResolveError.AtLayer (g.resolveLayer c t i) := by
  refine FailsOnly.bind (FailsOnly.mapM fun j _ ↦ ?_) fun inputs _ ↦ ?_
  · unfold arriving
    cases (t.get j).formats.result with
    | some f => exact failsOnly_ok _
    | none => exact .error trivial
  · exact (Layer.failsAtLayer_resolveFormats _ c inputs).bind fun formats _ ↦ failsOnly_ok _

end FailsAtLayer

namespace Graph

variable {g : Graph} {d : Description} {c : Config} {t t' : Typing g}

/-- The layer resolved next finds these formats. -/
abbrev Finds (c : Config) (t : Typing g) (i : Fin g.size) (typed : LayerFormats) : Prop :=
  g.resolveLayer c t i = .ok typed

/-- A resolution ends where no layer is left, or at the first layer that fails. -/
inductive Ends (c : Config) (t : Typing g) : List (Fin g.size) → Except ResolveError Unit → Prop
  | done : Ends c t [] (.ok ())
  | fault {i : Fin g.size} {after : List (Fin g.size)} {e : ResolveError} (h : g.resolveLayer c t i = .error e) :
      Ends c t (i :: after) (.error e)

theorem resolveAlong_together (t t' : Typing g) {resolved order : List (Fin g.size)}
    (hin : InOrder (fun i ↦ (g.layer i).inputs) (resolved ++ order)) (h : ∀ j ∈ resolved, t.get j = t'.get j) :
    (g.resolveAlong c order t).2 = (g.resolveAlong c order t').2 ∧ ∃ before rest, order = before ++ rest ∧
      Passes (Finds c) before t (g.resolveAlong c order t).1 ∧
      Ends c (g.resolveAlong c order t).1 rest (g.resolveAlong c order t).2 ∧
      ∀ j ∈ resolved ++ before, (g.resolveAlong c order t).1.get j = (g.resolveAlong c order t').1.get j := by
  induction order generalizing resolved t t' with
  | nil =>
    refine ⟨rfl, [], [], rfl, .nil t, .done, ?_⟩
    rwa [List.append_nil]
  | cons i order ih =>
    have hlayer : g.resolveLayer c t i = g.resolveLayer c t' i :=
      resolveLayer_congr fun j hj ↦ h j (hin resolved i order rfl j hj)
    unfold resolveAlong
    rw [← hlayer]
    cases hi : g.resolveLayer c t i with
    | error e =>
      refine ⟨rfl, [], i :: order, rfl, .nil t, .fault hi, ?_⟩
      rwa [List.append_nil]
    | ok typed =>
      have hset : ∀ j ∈ resolved ++ [i], (t.set i typed).get j = (t'.set i typed).get j := by
        intro j hj
        by_cases hji : j = i
        · rw [hji, get_set_self, get_set_self]
        · rw [get_set_ne _ hji, get_set_ne _ hji]
          exact h j ((List.mem_append.mp hj).resolve_right fun hj ↦ hji (List.mem_singleton.mp hj))
      rw [List.append_cons] at hin
      obtain ⟨heq, before, rest, rfl, hpasses, hends, hagree⟩ := ih _ _ hin hset
      refine ⟨heq, i :: before, rest, rfl, .cons hi hpasses, hends, ?_⟩
      rwa [List.append_cons]

theorem Ends.atLayer {rest : List (Fin g.size)} {e : ResolveError} (h : Ends c t rest (.error e)) : e.AtLayer := by
  cases h with
  | fault h => exact g.failsAtLayer_resolveLayer c t _ e h

theorem absentLayers_ne_nil_iff : g.absentLayers c ≠ [] ↔ ∃ name ∈ c.layers, ∀ i, (g.layer i).name ≠ name := by
  simp [absentLayers, find?]

theorem resolve_of_absent (h : g.absentLayers c ≠ []) :
    g.resolve c t = (t, .error (.absentLayers (g.absentLayers c))) := by
  unfold resolve
  exact if_neg fun hempty ↦ h (List.isEmpty_iff.mp hempty)

theorem resolve_of_present (h : g.absentLayers c = []) : g.resolve c t = g.resolveAlong c g.order t := by
  unfold resolve
  exact if_pos (List.isEmpty_iff.mpr h)

theorem resolve_together (hd : g.Describes d) (h : g.absentLayers c = []) (t t' : Typing g) :
    (g.resolve c t).2 = (g.resolve c t').2 ∧ ∃ before rest, g.order = before ++ rest ∧
      (∀ j ∈ before, Finds c (g.resolve c t).1 j ((g.resolve c t).1.get j) ∧
        (g.resolve c t).1.get j = (g.resolve c t').1.get j) ∧
      Ends c (g.resolve c t).1 rest (g.resolve c t).2 ∧ ∀ j ∈ rest, (g.resolve c t).1.get j = t.get j := by
  have hreads : ReadsInputs (fun i ↦ (g.layer i).inputs) (Finds c) :=
    fun _ _ _ _ hagree h ↦ (resolveLayer_congr hagree).trans h
  have hin := hd.in_order
  have hnodup : g.order.Nodup := hd.perm.nodup_iff.mpr (List.nodup_finRange _)
  rw [resolve_of_present h, resolve_of_present h]
  obtain ⟨heq, before, rest, horder, hpasses, hends, hagree⟩ :=
    resolveAlong_together t t' (List.nil_append g.order ▸ hin) (by simp)
  rw [horder] at hin hnodup
  obtain ⟨hn, -, hdisjoint⟩ := List.nodup_append.mp hnodup
  obtain ⟨hlater, hself⟩ := hin.of_append.notMem_of_mem hn
  refine ⟨heq, before, rest, horder, fun j hj ↦ ⟨?_, hagree j hj⟩, hends, fun j hj ↦ ?_⟩
  · exact hpasses.solves hreads hn hlater hself j hj
  · exact hpasses.get_of_notMem fun hmem ↦ hdisjoint j hmem j hj rfl

/-- Whatever formats the layers of a graph have, resolution comes to the same result, and to the same formats
when it succeeds; how the formats came about does not matter, and the graph itself is never touched. If the
configuration names a layer that is absent, all formats stay. After any other error the layers before some layer
of the order have their new formats, the same from wherever resolution started, and that layer and those after
it still have the old ones. -/
theorem resolve_starts_afresh (hg : Graph.ofDescription d = .ok g) (c : Config) (t t' : Typing g) :
    (g.resolve c t).2 = (g.resolve c t').2 ∧
    ((g.resolve c t).2 = .ok () → (g.resolve c t).1 = (g.resolve c t').1) ∧
    ((∃ names, (g.resolve c t).2 = .error (.absentLayers names)) ↔ ∃ name ∈ c.layers, ∀ i, (g.layer i).name ≠ name) ∧
    (∀ names, (g.resolve c t).2 = .error (.absentLayers names) → (g.resolve c t).1 = t) ∧
    ∀ e, (g.resolve c t).2 = .error e → (∀ names, e ≠ .absentLayers names) →
      ∃ before i after, g.order = before ++ i :: after ∧
        (∀ j ∈ before, g.resolveLayer c (g.resolve c t).1 j = .ok ((g.resolve c t).1.get j) ∧
          (g.resolve c t).1.get j = (g.resolve c t').1.get j) ∧
        g.resolveLayer c (g.resolve c t).1 i = .error e ∧ ∀ j ∈ i :: after, (g.resolve c t).1.get j = t.get j := by
  rw [← absentLayers_ne_nil_iff]
  by_cases h : g.absentLayers c = []
  · have hd := describes_of_isOk hg
    obtain ⟨heq, before, rest, horder, hbefore, hends, hrest⟩ := resolve_together hd h t t'
    have hfault : ∀ names, (g.resolve c t).2 ≠ .error (.absentLayers names) := by
      intro names he
      exact (he ▸ hends).atLayer
    refine ⟨heq, ?_, iff_of_false (fun ⟨names, he⟩ ↦ hfault names he) (not_not_intro h),
      fun names he ↦ absurd he (hfault names), ?_⟩
    · intro hok
      rw [hok] at hends
      cases hends
      refine Vector.ext fun k hk ↦ (hbefore ⟨k, hk⟩ ?_).2
      rw [← List.append_nil before, ← horder]
      exact hd.perm.mem_iff.mpr (List.mem_finRange _)
    · intro e he _
      rw [he] at hends
      cases hends with
      | @fault i after _ hi => exact ⟨before, i, after, horder, hbefore, hi, hrest⟩
  · rw [resolve_of_absent h, resolve_of_absent h]
    refine ⟨rfl, nofun, iff_of_true ⟨_, rfl⟩ h, fun names _ ↦ rfl, ?_⟩
    intro e he hne
    cases he
    exact absurd rfl (hne _)

end Graph

def oversizedConfig : Config where
  layers := Std.ExtTreeMap.empty.insert "unit" { overrides := { weight := some { total := some 65 } } }

def staleTyping : Typing affineGraph := Vector.replicate affineGraph.size ⟨{ scale := some .trit }, 7⟩

theorem resolve_starts_afresh_stale :
    (affineGraph.resolve oversizedConfig staleTyping).2 = .error (.numeric (.invalidWidth 65 6)) ∧
      (affineGraph.resolve oversizedConfig affineGraph.untyped).2 = .error (.numeric (.invalidWidth 65 6)) ∧
      ∃ before i after, affineGraph.order = before ++ i :: after ∧
        ∀ j ∈ i :: after, (affineGraph.resolve oversizedConfig staleTyping).1.get j = staleTyping.get j := by
  have hfault : (affineGraph.resolve oversizedConfig staleTyping).2 = .error (.numeric (.invalidWidth 65 6)) := rfl
  obtain ⟨heq, -, -, -, hrest⟩ :=
    Graph.resolve_starts_afresh ofDescription_affine oversizedConfig staleTyping affineGraph.untyped
  obtain ⟨before, i, after, horder, -, -, hkept⟩ := hrest _ hfault nofun
  exact ⟨hfault, heq ▸ hfault, before, i, after, horder, hkept⟩

end FixedNet

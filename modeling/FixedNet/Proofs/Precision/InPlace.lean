import FixedNet.Proofs.Network.Passes
import FixedNet.Proofs.Precision.Modes

namespace FixedNet

theorem LayerFormats.withResult_eq_self_iff {l : LayerFormats} {f : Option Format} :
    l.withResult f = l ↔ l.formats.result = f := by
  constructor
  · intro h
    rw [← h]
    rfl
  · rintro rfl
    rfl

namespace OutputModes

variable (m : OutputModes) (g : Graph)

/-- A target names the layer or its class. -/
def Hits {n : ℕ} (layer : Layer n) : Prop := layer.name ∈ m.targets ∨ layer.op.className ∈ m.targets

instance {n : ℕ} (layer : Layer n) : Decidable (m.Hits layer) := inferInstanceAs (Decidable (_ ∨ _))

/-- The formats of a layer once the pass has been through. -/
def settled {n : ℕ} (layer : Layer n) (l : LayerFormats) : LayerFormats :=
  if m.isTarget layer then l.withResult (l.formats.result.map m.adjust) else l

section

variable {m} {n : ℕ} {layer : Layer n} {l : LayerFormats}

theorem isTarget_iff : m.isTarget layer ↔ m.Hits layer := by
  simp only [isTarget, Hits, List.any_eq_true, Bool.or_eq_true, beq_iff_eq]
  constructor
  · rintro ⟨target, hmem, rfl | rfl⟩
    · exact .inl hmem
    · exact .inr hmem
  · rintro (hmem | hmem)
    · exact ⟨_, hmem, .inl rfl⟩
    · exact ⟨_, hmem, .inr rfl⟩

theorem settled_of_isTarget (h : m.isTarget layer) : m.settled layer l = l.withResult (l.formats.result.map m.adjust) :=
  if_pos h

theorem settled_of_not_isTarget (h : ¬ m.isTarget layer) : m.settled layer l = l := if_neg h

theorem settled_eq_self_iff : m.settled layer l = l ↔ (m.settled layer l).formats.result = l.formats.result := by
  by_cases h : m.isTarget layer
  · rw [settled_of_isTarget h, LayerFormats.withResult_eq_self_iff]
    exact eq_comm
  · simp [settled_of_not_isTarget h]

theorem rewrite_eq (layer : Layer n) (s : Vector LayerFormats n × ℕ) (i : Fin n) :
    m.rewrite layer s i = (s.1.set i (m.settled layer (s.1.get i)) i.isLt,
      s.2 + if m.settled layer (s.1.get i) = s.1.get i then 0 else 1) := by
  -- All branches but the last leave the state, and there the formats of the layer are settled already.
  have hkeep (h : m.settled layer (s.1.get i) = s.1.get i) : s = (s.1.set i (m.settled layer (s.1.get i)) i.isLt,
      s.2 + if m.settled layer (s.1.get i) = s.1.get i then 0 else 1) := by
    rw [if_pos h, h]
    exact Prod.ext (Vector.set_getElem_self i.isLt).symm rfl
  unfold rewrite
  split
  case isFalse htarget => exact hkeep (settled_of_not_isTarget htarget)
  case isTrue htarget =>
    have hsettled := settled_of_isTarget (l := s.1.get i) htarget
    cases hf : (s.1.get i).formats.result with
    | none =>
      refine hkeep (hsettled.trans (LayerFormats.withResult_eq_self_iff.mpr ?_))
      rw [hf, Option.map_none]
    | some f =>
      rw [hf, Option.map_some] at hsettled
      rw [Option.elim_some]
      split
      case isTrue hadjust =>
        refine hkeep (hsettled.trans (LayerFormats.withResult_eq_self_iff.mpr ?_))
        rw [hf, hadjust]
      case isFalse hadjust =>
        have hne : m.settled layer (s.1.get i) ≠ s.1.get i := by
          rw [hsettled, Ne, LayerFormats.withResult_eq_self_iff, hf, Option.some_inj]
          exact Ne.symm hadjust
        rw [if_neg hne, hsettled]

theorem foldl_rewrite (layers : Fin n → Layer n) {order : List (Fin n)} (hn : order.Nodup)
    (s : Vector LayerFormats n × ℕ) :
    (∀ i, (order.foldl (fun s i ↦ m.rewrite (layers i) s i) s).1.get i =
      if i ∈ order then m.settled (layers i) (s.1.get i) else s.1.get i) ∧
    (order.foldl (fun s i ↦ m.rewrite (layers i) s i) s).2 =
      s.2 + order.countP fun i ↦ m.settled (layers i) (s.1.get i) ≠ s.1.get i := by
  induction order generalizing s with
  | nil => exact ⟨fun _ ↦ rfl, rfl⟩
  | cons i order ih =>
    obtain ⟨hi, hn⟩ := List.nodup_cons.mp hn
    obtain ⟨hget, hcount⟩ := ih hn (m.rewrite (layers i) s i)
    have hstep := rewrite_eq (m := m) (layers i) s i
    -- Without repetitions an entry is read and written in its own step only.
    have hother {j : Fin n} (hj : j ≠ i) : (m.rewrite (layers i) s i).1.get j = s.1.get j := by
      rw [hstep]
      exact get_set_ne _ hj _
    constructor
    · intro j
      rw [List.foldl_cons, hget]
      by_cases hj : j = i
      · rw [hj, if_neg hi, if_pos List.mem_cons_self, hstep]
        exact get_set_self _ _ _
      · rw [hother hj]
        simp only [List.mem_cons, hj, false_or]
    · have hrest : (order.countP fun j ↦ m.settled (layers j) ((m.rewrite (layers i) s i).1.get j) ≠
          (m.rewrite (layers i) s i).1.get j) = order.countP fun j ↦ m.settled (layers j) (s.1.get j) ≠ s.1.get j := by
        refine List.countP_congr fun j hj ↦ ?_
        rw [hother fun h ↦ hi (h ▸ hj)]
      rw [List.foldl_cons, hcount, hrest, List.countP_cons, hstep]
      by_cases h : m.settled (layers i) (s.1.get i) = s.1.get i
      · simp [h]
      · simp [h]
        omega

end

variable {m g} {m' : OutputModes} {t t' : Typing g} {i : Fin g.size}

def changes (m : OutputModes) (g : Graph) (t : Typing g) : ℕ :=
  (List.finRange g.size).countP fun i ↦ m.settled (g.layer i) (t.get i) ≠ t.get i

theorem run_of_untyped (h : m.untypedTarget? g t = some i) :
    m.run g t = (t, .error (.unresolved (g.layer i).name .result)) := by
  unfold run
  rw [h]

theorem run_of_typed (h : m.untypedTarget? g t = none) :
    m.run g t = (Vector.ofFn (m.formatsOf g t), .ok (m.changes g t)) := by
  obtain ⟨hget, hcount⟩ := foldl_rewrite (m := m) g.layer (List.nodup_finRange g.size) (t, 0)
  have hsettled : ((List.finRange g.size).foldl (fun s i ↦ m.rewrite (g.layer i) s i) (t, 0)).1 =
      Vector.ofFn (m.formatsOf g t) := Vector.ext fun k hk ↦ by
    rw [Vector.getElem_ofFn]
    exact (hget ⟨k, hk⟩).trans (if_pos (List.mem_finRange _))
  unfold run
  rw [h]
  dsimp only
  rw [hsettled, hcount, Nat.zero_add]
  rfl

theorem get_run_of_typed (h : m.untypedTarget? g t = none) (i : Fin g.size) :
    (m.run g t).1.get i = m.settled (g.layer i) (t.get i) := by
  rw [run_of_typed h]
  exact Vector.getElem_ofFn i.isLt

theorem run_eq_apply (t : Typing g) :
    m.run g t =
      match m.apply g t with
      | .ok (t', n) => (t', .ok n)
      | .error e => (t, .error e) := by
  unfold apply
  cases h : m.untypedTarget? g t with
  | some i => exact run_of_untyped h
  | none =>
    refine (run_of_typed h).trans (Prod.ext rfl (congrArg Except.ok (List.countP_congr fun i _ ↦ ?_)))
    have hget : (Vector.ofFn (m.formatsOf g t)).get i = m.settled (g.layer i) (t.get i) := Vector.getElem_ofFn i.isLt
    rw [hget]

theorem untypedTarget?_eq_none_iff :
    m.untypedTarget? g t = none ↔ ∀ i, m.Hits (g.layer i) → (t.get i).formats.result ≠ none := by
  simp [untypedTarget?, isTarget_iff]

theorem exists_untypedTarget? (h : m.Hits (g.layer i)) (hi : (t.get i).formats.result = none) :
    ∃ j ≤ i, m.Hits (g.layer j) ∧ (t.get j).formats.result = none ∧ m.untypedTarget? g t = some j := by
  cases hj : m.untypedTarget? g t with
  | none => exact absurd hi (untypedTarget?_eq_none_iff.mp hj i h)
  | some j =>
    obtain ⟨htarget, k, hk, rfl, hbefore⟩ := List.find?_eq_some_iff_getElem.mp hj
    simp only [List.getElem_finRange, Bool.and_eq_true, isTarget_iff, Option.isNone_iff_eq_none] at htarget
    refine ⟨_, ?_, by simpa using htarget.1, by simpa using htarget.2, rfl⟩
    by_contra hlt
    have hlt : i.val < k := by simpa [Fin.lt_def] using hlt
    simpa [isTarget_iff.mpr h, hi] using hbefore i.val hlt

theorem untypedTarget?_congr (h : ∀ i, m.Hits (g.layer i) → t'.get i = t.get i) :
    m.untypedTarget? g t' = m.untypedTarget? g t := by
  unfold untypedTarget?
  refine congrArg (fun p ↦ List.find? p _) (funext fun i ↦ ?_)
  by_cases hi : m.isTarget (g.layer i)
  · rw [h i (isTarget_iff.mp hi)]
  · simp [hi]

theorem get_run_of_not_hits (h : ¬ m.Hits (g.layer i)) : (m.run g t).1.get i = t.get i := by
  cases hu : m.untypedTarget? g t with
  | some j => rw [run_of_untyped hu]
  | none => rw [get_run_of_typed hu, settled_of_not_isTarget (mt isTarget_iff.mp h)]

theorem get_run_congr (h : ∀ i, m.Hits (g.layer i) → t'.get i = t.get i) (hi : m.Hits (g.layer i)) :
    (m.run g t').1.get i = (m.run g t).1.get i := by
  have huntyped := untypedTarget?_congr h
  cases hu : m.untypedTarget? g t with
  | some j =>
    rw [run_of_untyped hu, run_of_untyped (huntyped.trans hu)]
    exact h i hi
  | none =>
    rw [get_run_of_typed hu, get_run_of_typed (huntyped.trans hu), h i hi]

theorem snd_run_congr (h : ∀ i, m.Hits (g.layer i) → t'.get i = t.get i) : (m.run g t').2 = (m.run g t).2 := by
  have huntyped := untypedTarget?_congr h
  cases hu : m.untypedTarget? g t with
  | some j => rw [run_of_untyped hu, run_of_untyped (huntyped.trans hu)]
  | none =>
    rw [run_of_typed hu, run_of_typed (huntyped.trans hu)]
    refine congrArg Except.ok (List.countP_congr fun i _ ↦ ?_)
    by_cases hi : m.isTarget (g.layer i)
    · rw [h i (isTarget_iff.mp hi)]
    · simp [settled_of_not_isTarget hi]

theorem run_comm (h : ∀ i, ¬ (m.Hits (g.layer i) ∧ m'.Hits (g.layer i))) (t : Typing g) :
    (m'.run g (m.run g t).1).1 = (m.run g (m'.run g t).1).1 ∧
      (m.run g (m'.run g t).1).2 = (m.run g t).2 ∧ (m'.run g (m.run g t).1).2 = (m'.run g t).2 := by
  have hm (i : Fin g.size) (hi : m.Hits (g.layer i)) : (m'.run g t).1.get i = t.get i :=
    get_run_of_not_hits fun hi' ↦ h i ⟨hi, hi'⟩
  have hm' (i : Fin g.size) (hi : m'.Hits (g.layer i)) : (m.run g t).1.get i = t.get i :=
    get_run_of_not_hits fun hi' ↦ h i ⟨hi', hi⟩
  refine ⟨Vector.ext fun k hk ↦ ?_, snd_run_congr hm, snd_run_congr hm'⟩
  -- A layer is hit by one of the passes at most, and the other one may as well not have run.
  change (m'.run g (m.run g t).1).1.get ⟨k, hk⟩ = (m.run g (m'.run g t).1).1.get ⟨k, hk⟩
  by_cases hi : m.Hits (g.layer ⟨k, hk⟩)
  · rw [get_run_of_not_hits fun hi' ↦ h _ ⟨hi, hi'⟩, get_run_congr hm hi]
  · by_cases hi' : m'.Hits (g.layer ⟨k, hk⟩)
    · rw [get_run_congr hm' hi', get_run_of_not_hits hi]
    · rw [get_run_of_not_hits hi', get_run_of_not_hits hi, get_run_of_not_hits hi, get_run_of_not_hits hi']

/-- The formats `t` with the modes replaced in the results of all targets, and in nothing else. -/
structure Adjusts (m : OutputModes) (t t' : Typing g) : Prop where
  target : ∀ i, m.Hits (g.layer i) → ∃ f f', (t.get i).formats.result = some f ∧
    t'.get i = (t.get i).withResult (some f') ∧ f.SameGrid f' ∧ f'.rounding = m.rounding ∧ f'.overflow = m.overflow
  other : ∀ i, ¬ m.Hits (g.layer i) → t'.get i = t.get i

theorem run_adjusts (h : m.untypedTarget? g t = none) : m.Adjusts t (m.run g t).1 := by
  refine ⟨fun i hi ↦ ?_, fun i hi ↦ get_run_of_not_hits hi⟩
  obtain ⟨f, hf⟩ := Option.ne_none_iff_exists'.mp (untypedTarget?_eq_none_iff.mp h i hi)
  refine ⟨f, m.adjust f, hf, ?_, ⟨rfl, rfl, rfl⟩, rfl, rfl⟩
  rw [get_run_of_typed h, settled_of_isTarget (isTarget_iff.mpr hi), hf, Option.map_some]

theorem run_of_settled (h : ∀ i, m.Hits (g.layer i) → ∃ f, (t.get i).formats.result = some f ∧ m.adjust f = f) :
    m.run g t = (t, .ok 0) := by
  have hsettled (i : Fin g.size) : m.settled (g.layer i) (t.get i) = t.get i := by
    by_cases hi : m.isTarget (g.layer i)
    · obtain ⟨f, hf, hadjust⟩ := h i (isTarget_iff.mp hi)
      rw [settled_of_isTarget hi, LayerFormats.withResult_eq_self_iff, hf, Option.map_some, hadjust]
    · exact settled_of_not_isTarget hi
  have htyped : m.untypedTarget? g t = none := untypedTarget?_eq_none_iff.mpr fun i hi ↦ by
    obtain ⟨f, hf, -⟩ := h i hi
    rw [hf]
    exact Option.some_ne_none f
  have hnone : m.changes g t = 0 := List.countP_eq_zero.mpr fun i _ ↦ by simp [hsettled i]
  rw [run_of_typed htyped, hnone]
  refine Prod.ext (Vector.ext fun k hk ↦ ?_) rfl
  rw [Vector.getElem_ofFn]
  exact hsettled ⟨k, hk⟩

theorem changes_eq_card (m : OutputModes) (g : Graph) (t : Typing g) : m.changes g t =
    (Finset.univ.filter fun i ↦ (m.settled (g.layer i) (t.get i)).formats.result ≠ (t.get i).formats.result).card := by
  unfold changes
  rw [List.countP_eq_length_filter]
  change _ = (List.filter _ (List.finRange g.size)).length
  simp only [ne_eq, settled_eq_self_iff]

/-- In place the pass fails with the first target that has no result format, and then nothing has changed, or else it
adjusts the results of all targets and nothing else, counts those that changed, and finds nothing to do a second time.
Passes over different layers can be run in either order. -/
theorem run_adjusts_all_or_nothing (m : OutputModes) (g : Graph) (t : Typing g) :
    (m.run g t =
      match m.apply g t with
      | .ok (t', n) => (t', .ok n)
      | .error e => (t, .error e)) ∧
    (∀ i, m.Hits (g.layer i) → (t.get i).formats.result = none → ∃ j ≤ i, m.Hits (g.layer j) ∧
      (t.get j).formats.result = none ∧ m.run g t = (t, .error (.unresolved (g.layer j).name .result))) ∧
    ((∀ i, m.Hits (g.layer i) → (t.get i).formats.result ≠ none) → ∃ t' n, m.run g t = (t', .ok n) ∧
      m.Adjusts t t' ∧ n = (Finset.univ.filter fun i ↦ (t'.get i).formats.result ≠ (t.get i).formats.result).card ∧
        m.run g t' = (t', .ok 0)) ∧
    ∀ m' : OutputModes, (∀ i, ¬ (m.Hits (g.layer i) ∧ m'.Hits (g.layer i))) →
      (m'.run g (m.run g t).1).1 = (m.run g (m'.run g t).1).1 ∧
        (m.run g (m'.run g t).1).2 = (m.run g t).2 ∧ (m'.run g (m.run g t).1).2 = (m'.run g t).2 := by
  refine ⟨run_eq_apply t, fun i hi hnone ↦ ?_, fun h ↦ ?_, fun m' h ↦ run_comm h t⟩
  · obtain ⟨j, hj, hhits, hnone, huntyped⟩ := exists_untypedTarget? hi hnone
    exact ⟨j, hj, hhits, hnone, run_of_untyped huntyped⟩
  · have htyped := untypedTarget?_eq_none_iff.mpr h
    have hadjusts := run_adjusts htyped
    refine ⟨(m.run g t).1, m.changes g t, by rw [run_of_typed htyped], hadjusts, ?_, run_of_settled fun i hi ↦ ?_⟩
    · rw [changes_eq_card]
      simp only [get_run_of_typed htyped]
    · obtain ⟨f, f', -, hf', -, hrounding, hoverflow⟩ := hadjusts.target i hi
      refine ⟨f', by rw [hf']; rfl, ?_⟩
      rw [adjust, ← hrounding, ← hoverflow]
      rfl

def denseModes : OutputModes := ⟨["Dense"], .nearestEven, .saturate⟩

def dataModes : OutputModes := ⟨["data"], .down, .saturate⟩

/-- A pass by class, before and after resolution, and beside a pass by name. -/
theorem run_adjusts_all_or_nothing_affine :
    denseModes.run affineGraph affineGraph.untyped = (affineGraph.untyped, .error (.unresolved "unit" .result)) ∧
    (∃ t', denseModes.run affineGraph (affineGraph.resolve {} affineGraph.untyped).1 = (t', .ok 1) ∧
      denseModes.Adjusts (affineGraph.resolve {} affineGraph.untyped).1 t' ∧
      denseModes.run affineGraph t' = (t', .ok 0)) ∧
    (∀ i, ¬ (denseModes.Hits (affineGraph.layer i) ∧ dataModes.Hits (affineGraph.layer i))) ∧ ∀ t,
      (dataModes.run affineGraph (denseModes.run affineGraph t).1).1 =
        (denseModes.run affineGraph (dataModes.run affineGraph t).1).1 := by
  have hdisjoint : ∀ i, ¬ (denseModes.Hits (affineGraph.layer i) ∧ dataModes.Hits (affineGraph.layer i)) := by decide
  refine ⟨?_, ?_, hdisjoint, fun t ↦ ?_⟩
  · obtain ⟨-, hfails, -, -⟩ := run_adjusts_all_or_nothing denseModes affineGraph affineGraph.untyped
    obtain ⟨j, -, hhits, -, hrun⟩ := hfails affineGraph.output (by decide) rfl
    have hj : ∀ j, denseModes.Hits (affineGraph.layer j) → j = affineGraph.output := by decide
    rwa [hj j hhits] at hrun
  · obtain ⟨-, -, hadjusts, -⟩ :=
      run_adjusts_all_or_nothing denseModes affineGraph (affineGraph.resolve {} affineGraph.untyped).1
    obtain ⟨t', n, hrun, hadjusts, -, hagain⟩ := hadjusts (by decide)
    have hone : (denseModes.run affineGraph (affineGraph.resolve {} affineGraph.untyped).1).2 = .ok 1 := rfl
    rw [hrun] at hone
    cases hone
    exact ⟨t', hrun, hadjusts, hagain⟩
  · obtain ⟨-, -, -, hcomm⟩ := run_adjusts_all_or_nothing denseModes affineGraph t
    exact (hcomm dataModes hdisjoint).1

end OutputModes

end FixedNet

import FixedNet.Proofs.Network.Renaming
import FixedNet.Proofs.Precision.Modes

namespace FixedNet.Graph

variable {g g' : Graph} {d d' : Description} {c : Config} {t t' : Typing g} {m : OutputModes}

theorem find?_eq_some_iff (hg : Graph.ofDescription d = .ok g) {name : String} {i : Fin g.size} :
    g.find? name = some i ↔ (g.layer i).name = name := by
  have hname {j : Fin g.size} (hj : g.find? name = some j) : (g.layer j).name = name := by
    simpa using List.find?_some hj
  refine ⟨hname, fun hi ↦ ?_⟩
  cases hj : g.find? name with
  | none =>
    have hnone := List.find?_eq_none.mp hj i (List.mem_finRange i)
    simp [hi] at hnone
  | some j => exact congrArg some (name_injective hg ((hname hj).trans hi.symm))

namespace Renaming

variable (r : g.Renaming g')

theorem find?_eq (hg : Graph.ofDescription d = .ok g) (hg' : Graph.ofDescription d' = .ok g') (name : String) :
    g'.find? name = (g.find? name).map r.index := by
  refine Option.ext fun j ↦ ?_
  obtain ⟨i, rfl⟩ := r.index.surjective j
  have hname : (g'.layer (r.index i)).name = (g.layer i).name := by rw [r.layer_eq, Layer.renamed]
  rw [find?_eq_some_iff hg', hname, ← find?_eq_some_iff hg, Option.map_eq_some_iff]
  constructor
  · intro h
    exact ⟨i, h, rfl⟩
  · rintro ⟨k, hk, heq⟩
    rwa [← r.index.injective heq]

include r in
theorem absentLayers_eq (hg : Graph.ofDescription d = .ok g) (hg' : Graph.ofDescription d' = .ok g') :
    g'.absentLayers c = g.absentLayers c := by
  refine List.filter_congr fun name _ ↦ ?_
  rw [r.find?_eq hg hg', Option.isNone_map]

theorem mapM_inputs {ε β : Type} (f : Fin g'.size → Except ε β) (i : Fin g.size) :
    (g'.layer (r.index i)).inputs.mapM f = (g.layer i).inputs.mapM fun j ↦ f (r.index j) := by
  rw [r.layer_eq, Layer.renamed, List.mapM_map]
  rfl

theorem arriving_transport (t : Typing g) (i : Fin g.size) :
    g'.arriving (r.transport t) (r.index i) = g.arriving t i := by
  unfold arriving
  rw [get_transport, r.layer_eq]
  rfl

theorem resolveLayer_transport (t : Typing g) (i : Fin g.size) :
    g'.resolveLayer c (r.transport t) (r.index i) = g.resolveLayer c t i := by
  unfold resolveLayer
  rw [r.mapM_inputs]
  simp only [r.arriving_transport, r.layer_eq]
  rfl

theorem resolve_transport (hg : Graph.ofDescription d = .ok g) (hg' : Graph.ofDescription d' = .ok g')
    (t₀ : Typing g') (h : g.resolve c t = (t', .ok ())) : g'.resolve c t₀ = (r.transport t', .ok ()) := by
  obtain ⟨habsent, hlayers⟩ := (resolve_eq_ok_iff (describes_of_isOk hg)).mp h
  refine (resolve_eq_ok_iff (describes_of_isOk hg')).mpr ⟨(r.absentLayers_eq hg hg').trans habsent, ?_⟩
  rw [r.forall_iff]
  intro i
  rw [resolveLayer_transport, get_transport, hlayers]

theorem eq_transport {α : Type} {v : Vector α g.size} {w : Vector α g'.size}
    (h : ∀ i, w.get (r.index i) = v.get i) : w = r.transport v := by
  refine Vector.ext fun k hk ↦ ?_
  obtain ⟨i, hi⟩ := r.index.surjective ⟨k, hk⟩
  have hget := (h i).trans (r.get_transport v i).symm
  rwa [hi] at hget

theorem formatsOf_transport (t : Typing g) (i : Fin g.size) :
    m.formatsOf g' (r.transport t) (r.index i) = m.formatsOf g t i := by
  unfold OutputModes.formatsOf
  rw [get_transport, r.layer_eq]
  rfl

theorem apply_transport {n : ℕ} (h : m.apply g t = .ok (t', n)) :
    ∃ n', m.apply g' (r.transport t) = .ok (r.transport t', n') := by
  have hnone : m.untypedTarget? g' (r.transport t) = none := by
    refine List.find?_eq_none.mpr ?_
    simp only [List.mem_finRange, true_implies]
    rw [r.forall_iff]
    intro i
    rw [get_transport, r.layer_eq]
    unfold OutputModes.apply at h
    split at h
    case h_1 => cases h
    case h_2 hnone => exact List.find?_eq_none.mp hnone i (List.mem_finRange i)
  have happly : ∃ t₁ n', m.apply g' (r.transport t) = .ok (t₁, n') := by
    unfold OutputModes.apply
    rw [hnone]
    exact ⟨_, _, rfl⟩
  obtain ⟨t₁, n', happly⟩ := happly
  obtain rfl : t₁ = r.transport t' := r.eq_transport fun i ↦ by
    rw [get_of_apply happly, get_of_apply h, formatsOf_transport]
  exact ⟨n', happly⟩

end Renaming

end FixedNet.Graph

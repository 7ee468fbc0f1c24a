import FixedNet.Proofs.Network.WellFormed

namespace FixedNet

open Relation

theorem InOrder.eq_finRange {n : ℕ} {inputs : Fin n → List (Fin n)} {order : List (Fin n)} (h : InOrder inputs order)
    (hp : order.Perm (List.finRange n)) (hreads : ∀ i j : Fin n, j.val + 1 = i.val → j ∈ inputs i) :
    order = List.finRange n := by
  have hnodup : order.Nodup := hp.nodup_iff.mpr (List.nodup_finRange n)
  have hmem (i : Fin n) : i ∈ order := hp.mem_iff.mpr (List.mem_finRange i)
  have hlt (i : Fin n) : ∀ k (hk : k < n), i.val < k → order.idxOf i < order.idxOf ⟨k, hk⟩ := by
    intro k
    induction k with
    | zero => exact fun _ hik ↦ absurd hik (Nat.not_lt_zero _)
    | succ k ih =>
      intro hk hik
      have hstep : order.idxOf ⟨k, by omega⟩ < order.idxOf ⟨k + 1, hk⟩ :=
        (h.idxOf_lt hnodup (hmem _) (hreads ⟨k + 1, hk⟩ ⟨k, by omega⟩ rfl)).2
      rcases Nat.lt_succ_iff_lt_or_eq.mp hik with hik | hik
      · exact (ih (by omega) hik).trans hstep
      · have heq : i = ⟨k, by omega⟩ := Fin.ext hik
        exact heq ▸ hstep
  have hsorted : order.Pairwise (· < ·) := by
    refine List.pairwise_iff_getElem.mpr fun k l hk hl hkl ↦ ?_
    by_contra hnot
    rcases (not_lt.mp hnot).lt_or_eq with hback | heq
    · have hidx := hlt order[l] order[k].val order[k].isLt hback
      rw [hnodup.idxOf_getElem, Fin.eta, hnodup.idxOf_getElem] at hidx
      omega
    · exact hkl.ne' ((hnodup.getElem_inj_iff).mp heq)
  exact hp.eq_of_pairwise (fun a b _ _ hab hba ↦ absurd hab hba.not_gt) hsorted (List.pairwise_lt_finRange n)

namespace Description

variable {d : Description}

/-- The first layer is an input layer; each of the others is none and reads the one before it. -/
structure IsChain (d : Description) : Prop where
  first : ∀ layer, d[0]? = some layer → layer.kind.isInput = true ∧ layer.inputs = []
  next : ∀ k source layer, d[k]? = some source → d[k + 1]? = some layer →
    layer.kind.isInput = false ∧ layer.inputs = [source.name]

def before {α : Type} (values : ℕ → α) : ℕ → List α
  | 0 => []
  | k + 1 => [values k]

namespace IsChain

theorem get_first (h : d.IsChain) {i : Fin d.length} (hi : i.val = 0) :
    (d.get i).kind.isInput = true ∧ (d.get i).inputs = [] :=
  h.first (d.get i) (hi ▸ List.getElem?_eq_getElem i.isLt)

theorem get_next (h : d.IsChain) {i j : Fin d.length} (hij : j.val + 1 = i.val) :
    (d.get i).kind.isInput = false ∧ (d.get i).inputs = [(d.get j).name] :=
  h.next j.val (d.get j) (d.get i) (List.getElem?_eq_getElem j.isLt) (hij ▸ List.getElem?_eq_getElem i.isLt)

theorem eq_zero_or_exists_next (i : Fin d.length) : i.val = 0 ∨ ∃ j : Fin d.length, j.val + 1 = i.val := by
  rcases Nat.eq_zero_or_pos i.val with hi | hi
  · exact .inl hi
  · exact .inr ⟨⟨i.val - 1, by omega⟩, by dsimp only; omega⟩

theorem isInput_iff (h : d.IsChain) (i : Fin d.length) : (d.get i).kind.isInput = true ↔ i.val = 0 := by
  rcases eq_zero_or_exists_next i with hi | ⟨j, hij⟩
  · exact iff_of_true (h.get_first hi).1 hi
  · exact iff_of_false (Bool.eq_false_iff.mp (h.get_next hij).1) (by omega)

theorem mem_edges_iff (h : d.IsChain) (hn : d.NamesUnique) (i j : Fin d.length) :
    j ∈ d.edges i ↔ j.val + 1 = i.val := by
  rw [hn.mem_edges_iff]
  rcases eq_zero_or_exists_next i with hi | ⟨k, hik⟩
  · rw [(h.get_first hi).2]
    exact iff_of_false List.not_mem_nil (by omega)
  · rw [(h.get_next hik).2, List.mem_singleton]
    constructor
    · intro hname
      rw [hn.eq_of_name_eq hname, hik]
    · intro hij
      have hjk : j = k := Fin.ext (by omega)
      rw [hjk]

theorem inputsKnown (h : d.IsChain) : d.InputsKnown := by
  intro layer hlayer name hname
  obtain ⟨i, rfl⟩ := exists_index hlayer
  rcases eq_zero_or_exists_next i with hi | ⟨j, hij⟩
  · rw [(h.get_first hi).2] at hname
    cases hname
  · rw [(h.get_next hij).2] at hname
    exact ⟨d.get j, index_mem j, (List.mem_singleton.mp hname).symm⟩

theorem map_edges (h : d.IsChain) (hn : d.NamesUnique) {α : Type} (values : ℕ → α) (i : Fin d.length) :
    (d.edges i).map (fun j ↦ values j.val) = before values i.val := by
  have hnames := map_name_edges hn h.inputsKnown i
  rcases eq_zero_or_exists_next i with hi | ⟨j, hij⟩
  · rw [(h.get_first hi).2, List.map_eq_nil_iff] at hnames
    rw [hnames, hi]
    rfl
  · rw [(h.get_next hij).2, List.map_eq_singleton_iff] at hnames
    obtain ⟨k, hk, hname⟩ := hnames
    obtain rfl := hn.eq_of_name_eq hname
    rw [hk, ← hij]
    rfl

theorem acyclic_edges (h : d.IsChain) (hn : d.NamesUnique) : Acyclic fun i j ↦ j ∈ d.edges i := by
  have hlt {i j : Fin d.length} (hij : TransGen (fun i j ↦ j ∈ d.edges i) i j) : j < i := by
    induction hij with
    | single hj =>
      have hval := (h.mem_edges_iff hn _ _).mp hj
      exact Fin.lt_def.mpr (by omega)
    | tail _ hj ih =>
      have hval := (h.mem_edges_iff hn _ _).mp hj
      exact lt_trans (Fin.lt_def.mpr (by omega)) ih
  exact fun i hi ↦ (hlt hi).false

theorem topologicalOrder_eq (h : d.IsChain) (hn : d.NamesUnique) :
    topologicalOrder d.edges = some (List.finRange d.length) := by
  obtain ⟨order, horder⟩ := topologicalOrder_isSome_iff.mpr (h.acyclic_edges hn)
  obtain ⟨hperm, hin⟩ := topologicalOrder_spec horder
  rw [horder, hin.eq_finRange hperm fun i j hij ↦ (h.mem_edges_iff hn i j).mpr hij]

theorem only_inputLayers (h : d.IsChain) {i : Fin d.length} (hi : i.val = 0) : only d.inputLayers = some i := by
  refine only_filter_eq_some_iff.mpr ⟨(h.isInput_iff i).mpr hi, fun j hj ↦ Fin.ext ?_⟩
  rw [(h.isInput_iff j).mp hj, hi]

theorem only_sinks (h : d.IsChain) (hn : d.NamesUnique) {i : Fin d.length} (hi : i.val + 1 = d.length) :
    only d.sinks = some i := by
  have hsink (j : Fin d.length) :
      decide ((consumerCounts d.edges).get j = 0) = true ↔ ∀ k : Fin d.length, j.val + 1 ≠ k.val := by
    simp only [isSink_iff, h.mem_edges_iff hn, ne_eq]
  refine only_filter_eq_some_iff.mpr ⟨(hsink i).mpr fun k hk ↦ ?_, fun j hj ↦ ?_⟩
  · have hlt := k.isLt
    omega
  · by_contra hne
    have hlt : j.val + 1 < d.length := by
      have hne' : j.val ≠ i.val := fun heq ↦ hne (Fin.ext heq)
      have hlt := j.isLt
      omega
    exact (hsink j).mp hj ⟨j.val + 1, hlt⟩ rfl

/-- Along a chain the widths are those that fit, one after the other. -/
theorem features_eq (h : d.IsChain) (hn : d.NamesUnique) {layers : Vector (Layer d.length) d.length} {width : ℕ → ℕ}
    (hbuilt : ∀ i, BuiltAt layers i)
    (hfits : ∀ i : Fin d.length, (d.get i).kind.Fits word64 (before width i.val) (width i.val)) (i : Fin d.length) :
    (layers.get i).features = width i.val ∧
      (d.edges i).map (fun j ↦ (layers.get j).features) = before width i.val := by
  obtain ⟨k, hk⟩ := i
  induction k with
  | zero =>
    have hedges : d.edges ⟨0, hk⟩ = [] := List.map_eq_nil_iff.mp (h.map_edges hn width ⟨0, hk⟩)
    obtain ⟨op, features, hbuild, hlayer⟩ := hbuilt ⟨0, hk⟩
    obtain ⟨op', hop⟩ := LayerKind.build_isOk_iff.mpr (hfits ⟨0, hk⟩)
    rw [hedges] at hbuild ⊢
    cases hbuild.symm.trans hop
    exact ⟨by rw [hlayer], rfl⟩
  | succ k ih =>
    obtain ⟨hbefore, -⟩ := ih (by omega)
    have hedges : (d.edges ⟨k + 1, hk⟩).map Fin.val = [k] := h.map_edges hn id ⟨k + 1, hk⟩
    obtain ⟨j, hj, rfl⟩ := List.map_eq_singleton_iff.mp hedges
    have hwidths : (d.edges ⟨j.val + 1, hk⟩).map (fun j ↦ (layers.get j).features) = before width (j.val + 1) := by
      rw [hj, List.map_singleton]
      exact congrArg (fun w ↦ [w]) hbefore
    obtain ⟨op, features, hbuild, hlayer⟩ := hbuilt ⟨j.val + 1, hk⟩
    obtain ⟨op', hop⟩ := LayerKind.build_isOk_iff.mpr (hfits ⟨j.val + 1, hk⟩)
    rw [hwidths] at hbuild
    cases hbuild.symm.trans hop
    exact ⟨by rw [hlayer], hwidths⟩

theorem exists_graph (h : d.IsChain) (hn : d.NamesUnique) (hne : d ≠ []) (width : ℕ → ℕ)
    (hfits : ∀ i : Fin d.length, (d.get i).kind.Fits word64 (before width i.val) (width i.val)) :
    ∃ g, Graph.ofDescription d = .ok g ∧ g.order = List.finRange g.size ∧ g.size = d.length ∧ g.input.val = 0 ∧
      g.output.val + 1 = g.size ∧ ∀ i : Fin g.size, ∃ layer, d[i.val]? = some layer ∧
        (g.layer i).name = layer.name ∧ (g.layer i).features = width i.val ∧
          layer.kind.build (before width i.val) = .ok ((g.layer i).op, width i.val) := by
  have hpos : 0 < d.length := List.length_pos_of_ne_nil hne
  have horder := h.topologicalOrder_eq hn
  obtain ⟨hperm, hin⟩ := topologicalOrder_spec horder
  obtain ⟨hpair, hself⟩ := hin.notMem_of_mem (List.nodup_finRange d.length)
  obtain ⟨layers, hlayers⟩ := buildAlong_isOk (Vector.replicate d.length ⟨"", .input, [], 0⟩) (fun i ↦ width i.val)
    (fun i _ ↦ (h.map_edges hn width i).symm ▸ hfits i)
    (fun i _ j _ hj ↦ absurd (List.mem_finRange j) hj) hpair hself
  have hbuilt := builtAt_of_buildAlong hlayers hperm hin
  refine ⟨_, ofDescription_eq_ok_iff.mpr ⟨hne, hn, h.inputsKnown, ⟨0, hpos⟩, List.finRange d.length,
    ⟨d.length - 1, by omega⟩, layers, h.only_inputLayers rfl, horder, h.only_sinks hn (by dsimp only; omega),
    hlayers, rfl⟩,
    rfl, rfl, rfl, by dsimp only; omega, fun i ↦ ⟨d.get i, List.getElem?_eq_getElem i.isLt, ?_⟩⟩
  obtain ⟨hfeatures, hwidths⟩ := h.features_eq hn hbuilt hfits i
  obtain ⟨op, features, hbuild, hi⟩ := hbuilt i
  change (layers.get i).name = _ ∧ (layers.get i).features = _ ∧ _ = Except.ok ((layers.get i).op, _)
  rw [hi] at hfeatures ⊢
  exact ⟨rfl, hfeatures, hwidths ▸ hfeatures ▸ hbuild⟩

theorem singleton {layer : LayerDescription} (hkind : layer.kind.isInput = true) (hinputs : layer.inputs = []) :
    IsChain [layer] where
  first layer' h := by
    obtain rfl : layer = layer' := Option.some.inj h
    exact ⟨hkind, hinputs⟩
  next k source layer' _ h := by cases h

theorem push (h : d.IsChain) (hne : d ≠ []) {layer : LayerDescription} (hkind : layer.kind.isInput = false)
    (hinputs : layer.inputs = []) : (d.push layer).IsChain := by
  obtain ⟨source, hsource⟩ := Option.ne_none_iff_exists'.mp (mt List.getLast?_eq_none_iff.mp hne)
  have hpush : d.push layer = d ++ [{ layer with inputs := [source.name] }] := by
    unfold Description.push
    rw [hkind, hinputs, hsource]
    rfl
  have hpos : 0 < d.length := List.length_pos_of_ne_nil hne
  rw [hpush]
  refine ⟨fun layer' hlayer ↦ ?_, fun k source' layer' hsource' hlayer ↦ ?_⟩
  · rw [List.getElem?_append_left hpos] at hlayer
    exact h.first layer' hlayer
  · rcases lt_trichotomy (k + 1) d.length with hlt | heq | hgt
    · rw [List.getElem?_append_left (by omega)] at hsource' hlayer
      exact h.next k source' layer' hsource' hlayer
    · rw [List.getElem?_append_left (by omega)] at hsource'
      rw [heq, List.getElem?_concat_length] at hlayer
      rw [List.getLast?_eq_getElem?, ← heq, Nat.add_sub_cancel, hsource'] at hsource
      cases hlayer
      cases hsource
      exact ⟨hkind, rfl⟩
    · rw [List.getElem?_eq_none (by rw [List.length_append, List.length_singleton]; omega)] at hlayer
      cases hlayer

end IsChain

/-- The same layers, but for what they read. -/
def SameLayers (d layers : List LayerDescription) : Prop :=
  d.map (fun layer ↦ (layer.name, layer.kind)) = layers.map fun layer ↦ (layer.name, layer.kind)

namespace SameLayers

variable {layers : List LayerDescription}

theorem length_eq (h : SameLayers d layers) : d.length = layers.length := by
  simpa using congrArg List.length h

theorem map_name_eq (h : SameLayers d layers) :
    d.map LayerDescription.name = layers.map LayerDescription.name := by
  simpa [Function.comp_def] using congrArg (List.map Prod.fst) h

theorem exists_listed (h : SameLayers d layers) {k : ℕ} {layer : LayerDescription} (hk : d[k]? = some layer) :
    ∃ listed, layers[k]? = some listed ∧ listed.name = layer.name ∧ listed.kind = layer.kind := by
  have hpair := congrArg (fun pairs ↦ pairs[k]?) h
  simp only [List.getElem?_map, hk, Option.map_some] at hpair
  obtain ⟨listed, hlisted, heq⟩ := Option.map_eq_some_iff.mp hpair.symm
  exact ⟨listed, hlisted, congrArg Prod.fst heq, congrArg Prod.snd heq⟩

end SameLayers

theorem isChain_ofLayers (first : LayerDescription) {rest : List LayerDescription} (hkind : first.kind.isInput = true)
    (hinputs : first.inputs = []) (hrest : ∀ layer ∈ rest, layer.kind.isInput = false ∧ layer.inputs = []) :
    (ofLayers (first :: rest)).IsChain ∧ SameLayers (ofLayers (first :: rest)) (first :: rest) := by
  induction rest using List.reverseRecOn with
  | nil =>
    have hfirst : ofLayers [first] = [first] := by
      change push [] first = _
      rw [push, hkind]
      rfl
    rw [hfirst]
    exact ⟨.singleton hkind hinputs, rfl⟩
  | append_singleton rest layer ih =>
    obtain ⟨hchain, hsame⟩ := ih fun l hl ↦ hrest l (List.mem_append_left _ hl)
    obtain ⟨hlayer, hnone⟩ := hrest layer (by simp)
    have hpush : ofLayers (first :: (rest ++ [layer])) = (ofLayers (first :: rest)).push layer := by
      rw [ofLayers, ← List.cons_append, List.foldl_append]
      rfl
    have hne : ofLayers (first :: rest) ≠ [] := by
      apply List.ne_nil_of_length_pos
      simp [hsame.length_eq]
    rw [hpush]
    refine ⟨hchain.push hne hlayer hnone, ?_⟩
    rw [SameLayers, push, hlayer, hnone, ← List.cons_append, List.map_append, ← hsame]
    exact List.map_append

end Description

/-- Layers that fit one behind the other, with their widths, behind a layer of the given width. -/
inductive FitAlong : ℕ → List LayerDescription → List ℕ → Prop
  | nil {width : ℕ} : FitAlong width [] []
  | cons {width next : ℕ} {layer : LayerDescription} {layers : List LayerDescription} {widths : List ℕ}
      (fits : layer.kind.Fits word64 [width] next) (along : FitAlong next layers widths) :
      FitAlong width (layer :: layers) (next :: widths)

namespace FitAlong

variable {width : ℕ} {layers : List LayerDescription} {widths : List ℕ} {name : String}

theorem length_eq (h : FitAlong width layers widths) : widths.length = layers.length := by
  induction h with
  | nil => simp
  | cons fits along ih => simp [ih]

theorem fits_getElem? (h : FitAlong width layers widths) {k : ℕ} {layer : LayerDescription}
    (hk : layers[k]? = some layer) :
    layer.kind.Fits word64 [(width :: widths).getD k 0] ((width :: widths).getD (k + 1) 0) := by
  induction h generalizing k with
  | nil => simp at hk
  | cons fits along ih =>
    cases k with
    | zero =>
      cases hk
      simpa using fits
    | succ k => simpa using ih (by simpa using hk)

theorem fits_before (h : FitAlong width layers widths) (hpos : 0 < width) {d : Description}
    (hd : Description.SameLayers d (⟨name, [], .input width⟩ :: layers)) (i : Fin d.length) :
    (d.get i).kind.Fits word64 (Description.before (fun k ↦ (width :: widths).getD k 0) i.val)
      ((width :: widths).getD i.val 0) := by
  have hi : d[i.val]? = some (d.get i) := List.getElem?_eq_getElem i.isLt
  obtain ⟨listed, hlisted, -, hkind⟩ := hd.exists_listed hi
  rw [← hkind]
  cases hk : i.val with
  | zero =>
    rw [hk] at hlisted
    cases hlisted
    exact .input hpos
  | succ k =>
    rw [hk] at hlisted
    exact h.fits_getElem? hlisted

theorem exists_graph (h : FitAlong width layers widths) (name : String) (hpos : 0 < width)
    (hnames : (name :: layers.map LayerDescription.name).Nodup)
    (hlayers : ∀ layer ∈ layers, layer.kind.isInput = false ∧ layer.inputs = []) :
    ∃ g, Graph.ofDescription (.ofLayers (⟨name, [], .input width⟩ :: layers)) = .ok g ∧ g.size = layers.length + 1 ∧
      g.order = List.finRange g.size ∧ g.input.val = 0 ∧ g.output.val + 1 = g.size ∧
      (∀ i, (g.layer i).features = (width :: widths).getD i.val 0) ∧
      ∀ (i : Fin g.size) (k : ℕ) (layer : LayerDescription), k + 1 = i.val → layers[k]? = some layer →
        (g.layer i).name = layer.name ∧
          layer.kind.build [(width :: widths).getD k 0] = .ok ((g.layer i).op, (g.layer i).features) := by
  obtain ⟨hchain, hsame⟩ := Description.isChain_ofLayers ⟨name, [], .input width⟩ rfl rfl hlayers
  have hunique : (Description.ofLayers (⟨name, [], .input width⟩ :: layers)).NamesUnique := by
    rw [Description.NamesUnique, hsame.map_name_eq]
    exact hnames
  have hlength := hsame.length_eq
  rw [List.length_cons] at hlength
  obtain ⟨g, hg, horder, hsize, hinput, houtput, hget⟩ := hchain.exists_graph hunique
    (List.ne_nil_of_length_pos (by omega)) (fun k ↦ (width :: widths).getD k 0) (h.fits_before hpos hsame)
  refine ⟨g, hg, hsize.trans hlength, horder, hinput, houtput, fun i ↦ ?_, fun i k layer hk hlayer ↦ ?_⟩
  · obtain ⟨-, -, -, hfeatures, -⟩ := hget i
    exact hfeatures
  · obtain ⟨layer', hlayer', hname, hfeatures, hbuild⟩ := hget i
    obtain ⟨listed, hlisted, hname', hkind⟩ := hsame.exists_listed hlayer'
    rw [← hk, List.getElem?_cons_succ, hlayer] at hlisted
    cases hlisted
    rw [hname, hname', hkind, hfeatures]
    rw [← hk] at hbuild ⊢
    exact ⟨rfl, hbuild⟩

end FitAlong

end FixedNet

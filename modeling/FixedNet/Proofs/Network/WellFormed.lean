import FixedNet.Proofs.Network.Naming
import FixedNet.Proofs.Network.Passes

namespace FixedNet

open Relation

/-- A network one would draw: named layers without a cycle between one input and one output, in which every layer
fits the widths of those it reads, with sizes held as `count` says. -/
structure Description.WellFormed (count : ℕ → ℕ) (d : Description) : Prop where
  nonempty : d ≠ []
  names_unique : d.NamesUnique
  inputs_known : d.InputsKnown
  one_input : ∃! layer, layer ∈ d ∧ layer.kind.isInput = true
  acyclic : Acyclic d.Reads
  one_output : ∃! layer, layer ∈ d ∧ ∀ reader ∈ d, layer.name ∉ reader.inputs
  fits : ∃ width : String → ℕ, ∀ layer ∈ d, layer.kind.Fits count (layer.inputs.map width) (width layer.name)

/-- The widths of the layers as they are, none of the sizes that follow from them leaving a word. -/
structure Description.Measures (d : Description) (width : String → ℕ) : Prop where
  width_eq : ∀ layer ∈ d, width layer.name = layer.kind.width (layer.inputs.map width)
  volume_lt : ∀ layer ∈ d, layer.kind.volume (layer.inputs.map width) < 2 ^ 64

/-- The sizes of the layers fit into words, so that counting them does not wrap around. -/
def Description.Sized (d : Description) : Prop := ∃ width, d.Measures width

namespace Graph

variable (g : Graph)

def Reads (i j : Fin g.size) : Prop := j ∈ (g.layer i).inputs

/-- The layer at an index is the described one, with its inputs, its operation and its width. -/
structure Holds (i : Fin g.size) (layer : LayerDescription) : Prop where
  name_eq : (g.layer i).name = layer.name
  inputs_eq : (g.layer i).inputs.map (fun j ↦ (g.layer j).name) = layer.inputs
  build_eq : layer.kind.build ((g.layer i).inputs.map fun j ↦ (g.layer j).features) =
    .ok ((g.layer i).op, (g.layer i).features)

/-- A graph with the layers of a description, in an order that respects their inputs. -/
structure Describes (d : Description) : Prop where
  size_eq : g.size = d.length
  holds : ∀ i, ∃ layer, d[i.val]? = some layer ∧ g.Holds i layer
  perm : g.order.Perm (List.finRange g.size)
  in_order : InOrder (fun i ↦ (g.layer i).inputs) g.order
  input_iff : ∀ i, (g.layer i).inputs = [] ↔ i = g.input
  output_iff : ∀ i, (∀ j, ¬ g.Reads j i) ↔ i = g.output
  from_input : ∀ i, ReflTransGen g.Reads i g.input
  to_output : ∀ i, ReflTransGen g.Reads g.output i

end Graph

namespace Description

variable {d : Description}

/-- A layer stands as it was described, on top of the layers it reads. -/
def BuiltAt (layers : Vector (Layer d.length) d.length) (i : Fin d.length) : Prop :=
  ∃ op features, (d.get i).kind.build ((d.edges i).map fun j ↦ (layers.get j).features) = .ok (op, features) ∧
    layers.get i = ⟨(d.get i).name, op, d.edges i, features⟩

theorem passes_of_buildAlong {order : List (Fin d.length)} {built layers : Vector (Layer d.length) d.length}
    (h : d.buildAlong order built = .ok layers) : Passes (fun layers i layer ↦ ∃ op features,
      (d.get i).kind.build ((d.edges i).map fun j ↦ (layers.get j).features) = .ok (op, features) ∧
        layer = ⟨(d.get i).name, op, d.edges i, features⟩) order built layers := by
  induction order generalizing built with
  | nil =>
    cases h
    exact .nil _
  | cons i order ih =>
    obtain ⟨⟨op, features⟩, hbuild, h⟩ := bind_eq_ok_iff.mp h
    exact .cons ⟨op, features, mapError_eq_ok_iff.mp hbuild, rfl⟩ (ih h)

theorem builtAt_of_buildAlong {order : List (Fin d.length)} {built layers : Vector (Layer d.length) d.length}
    (h : d.buildAlong order built = .ok layers) (hperm : order.Perm (List.finRange d.length))
    (hin : InOrder d.edges order) (i : Fin d.length) : BuiltAt layers i := by
  refine (passes_iff ?_ hperm hin).mp (passes_of_buildAlong h) i
  rintro v w i layer hv ⟨op, features, hbuild, hlayer⟩
  refine ⟨op, features, ?_, hlayer⟩
  rw [← hbuild, List.map_congr_left fun j hj ↦ congrArg Layer.features (hv j hj)]

theorem buildAlong_isOk {order : List (Fin d.length)} (built : Vector (Layer d.length) d.length)
    (width : Fin d.length → ℕ) (hfits : ∀ i ∈ order, (d.get i).kind.Fits word64 ((d.edges i).map width) (width i))
    (hbuilt : ∀ i ∈ order, ∀ j ∈ d.edges i, j ∉ order → (built.get j).features = width j)
    (ho : order.Pairwise fun i j ↦ j ∉ d.edges i) (hself : ∀ i ∈ order, i ∉ d.edges i) :
    ∃ layers, d.buildAlong order built = .ok layers := by
  induction order generalizing built with
  | nil => exact ⟨built, rfl⟩
  | cons i order ih =>
    obtain ⟨hread, ho⟩ := List.pairwise_cons.mp ho
    have hwidths : (d.edges i).map (fun j ↦ (built.get j).features) = (d.edges i).map width := by
      refine List.map_congr_left fun j hj ↦ hbuilt i List.mem_cons_self j hj ?_
      rw [List.mem_cons, not_or]
      refine ⟨?_, fun hmem ↦ hread j hmem hj⟩
      rintro rfl
      exact hself j List.mem_cons_self hj
    obtain ⟨op, hop⟩ := LayerKind.build_isOk_iff.mpr (hfits i List.mem_cons_self)
    have hnext (j : Fin d.length) (hj : j ∈ order) (k : Fin d.length) (hk : k ∈ d.edges j) (hmem : k ∉ order) :
        ((built.set i ⟨(d.get i).name, op, d.edges i, width i⟩).get k).features = width k := by
      by_cases hik : k = i
      · rw [hik, get_set_self]
      · rw [get_set_ne _ hik]
        exact hbuilt j (List.mem_cons_of_mem i hj) k hk fun h ↦ (List.mem_cons.mp h).elim hik hmem
    obtain ⟨layers, hlayers⟩ := ih _ (fun j hj ↦ hfits j (List.mem_cons_of_mem i hj)) hnext ho
      fun j hj ↦ hself j (List.mem_cons_of_mem i hj)
    rw [← hwidths] at hop
    simp only [buildAlong, bind_eq_ok_iff, mapError_eq_ok_iff]
    exact ⟨layers, _, hop, hlayers⟩

theorem ofDescription_eq_ok_iff {g : Graph} : Graph.ofDescription d = .ok g ↔
    d ≠ [] ∧ d.NamesUnique ∧ d.InputsKnown ∧ ∃ input order output layers, only d.inputLayers = some input ∧
      topologicalOrder d.edges = some order ∧ only d.sinks = some output ∧
      d.buildAlong order (Vector.replicate d.length ⟨"", .input, [], 0⟩) = .ok layers ∧
      g = ⟨d.length, layers, order, input, output⟩ := by
  rw [NamesUnique, ← firstRepeated_eq_none_iff, ← unknownInput?_eq_none_iff, ← List.isEmpty_eq_false_iff]
  unfold Graph.ofDescription
  cases hempty : d.isEmpty with
  | true => exact iff_of_false (by rintro ⟨⟩) (by simp)
  | false =>
  cases hrepeated : firstRepeated (d.map LayerDescription.name) with
  | some name => exact iff_of_false (by rintro ⟨⟩) (by simp)
  | none =>
  cases hunknown : d.unknownInput? with
  | some p => exact iff_of_false (by rintro ⟨⟩) (by simp)
  | none =>
  cases hinput : only d.inputLayers with
  | none => exact iff_of_false (by rintro ⟨⟩) (by simp)
  | some input =>
  cases horder : topologicalOrder d.edges with
  | none => exact iff_of_false (by rintro ⟨⟩) (by simp)
  | some order =>
  cases houtput : only d.sinks with
  | none => exact iff_of_false (by rintro ⟨⟩) (by simp)
  | some output =>
    constructor
    · intro h
      obtain ⟨layers, hl, hg⟩ := bind_eq_ok_iff.mp h
      exact ⟨rfl, rfl, rfl, input, order, output, layers, rfl, rfl, rfl, hl, (pure_eq_ok_iff.mp hg).symm⟩
    · rintro ⟨-, -, -, _, _, _, layers, hi, ho, hs, hl, rfl⟩
      cases hi
      cases ho
      cases hs
      exact bind_eq_ok_iff.mpr ⟨layers, hl, rfl⟩

def widthOf (d : Description) (layers : Vector (Layer d.length) d.length) (name : String) : ℕ :=
  ((d.indexOf? name).map fun i ↦ (layers.get i).features).getD 0

theorem NamesUnique.widthOf_name (h : d.NamesUnique) (layers : Vector (Layer d.length) d.length)
    (i : Fin d.length) : d.widthOf layers (d.get i).name = (layers.get i).features := by
  rw [widthOf, h.indexOf?_eq_some_iff.mpr rfl]
  rfl

theorem map_widths (hn : d.NamesUnique) (hk : d.InputsKnown) (width : String → ℕ) (i : Fin d.length) :
    (d.edges i).map (fun j ↦ width (d.get j).name) = (d.get i).inputs.map width := by
  rw [← map_name_edges hn hk i, List.map_map]
  rfl

theorem isOk_of_wellFormed (h : d.WellFormed word64) : ∃ g, Graph.ofDescription d = .ok g := by
  obtain ⟨nonempty, hn, hk, one_input, acyclic, one_output, width, fits⟩ := h
  obtain ⟨input, hinput⟩ := (exists_only_inputLayers_iff hn).mpr one_input
  obtain ⟨output, houtput⟩ := (exists_only_sinks_iff hn).mpr one_output
  obtain ⟨order, horder⟩ := topologicalOrder_isSome_iff.mpr ((acyclic_edges_iff hn hk).mpr acyclic)
  obtain ⟨hperm, hin⟩ := topologicalOrder_spec horder
  obtain ⟨hpair, hself⟩ := hin.notMem_of_mem (hperm.nodup_iff.mpr (List.nodup_finRange _))
  obtain ⟨layers, hlayers⟩ := buildAlong_isOk (Vector.replicate d.length ⟨"", .input, [], 0⟩)
    (fun i ↦ width (d.get i).name) (fun i _ ↦ map_widths hn hk width i ▸ fits (d.get i) (index_mem i))
    (fun i _ j _ hj ↦ absurd (hperm.mem_iff.mpr (List.mem_finRange j)) hj) hpair hself
  exact ⟨_, ofDescription_eq_ok_iff.mpr
    ⟨nonempty, hn, hk, input, order, output, layers, hinput, horder, houtput, hlayers, rfl⟩⟩

namespace Measures

variable {width : String → ℕ} {count count' : ℕ → ℕ} (hm : d.Measures width) (hn : d.NamesUnique) (hk : d.InputsKnown)
  (hcount : ∀ n < 2 ^ 64, count n = n)
include hm hn hk hcount

theorem eq_of_fits (hacyclic : Acyclic fun i j ↦ j ∈ d.edges i) {f : Fin d.length → ℕ}
    (hf : ∀ i, (d.get i).kind.Fits count ((d.edges i).map f) (f i)) (i : Fin d.length) :
    f i = width (d.get i).name := by
  induction i using hacyclic.wellFounded.induction with
  | _ i ih =>
    have hwidths : (d.edges i).map f = (d.get i).inputs.map width := by
      rw [← map_widths hn hk]
      exact List.map_congr_left fun j hj ↦ ih j (.single hj)
    have hfits := hwidths ▸ hf i
    rw [hfits.width_eq (hcount _ (hm.volume_lt _ (index_mem i))), hm.width_eq _ (index_mem i)]

theorem fits (hfits : ∃ f : String → ℕ, ∀ layer ∈ d, layer.kind.Fits count (layer.inputs.map f) (f layer.name))
    (hacyclic : Acyclic d.Reads) {layer : LayerDescription} (hl : layer ∈ d) :
    layer.kind.Fits count (layer.inputs.map width) (width layer.name) := by
  obtain ⟨f, hf⟩ := hfits
  have heq := hm.eq_of_fits hn hk hcount ((acyclic_edges_iff hn hk).mpr hacyclic)
    (f := fun i ↦ f (d.get i).name) fun i ↦ map_widths hn hk f i ▸ hf (d.get i) (index_mem i)
  obtain ⟨i, rfl⟩ := exists_index hl
  rw [← heq, ← map_widths hn hk width, ← List.map_congr_left fun j _ ↦ heq j, map_widths hn hk f]
  exact hf (d.get i) hl

theorem wellFormed (hcount' : ∀ n < 2 ^ 64, count' n = n) (h : d.WellFormed count) : d.WellFormed count' := by
  refine { h with fits := ⟨width, fun layer hl ↦ ?_⟩ }
  have hvolume := hm.volume_lt layer hl
  exact (hm.fits hn hk hcount h.fits h.acyclic hl).congr ((hcount _ hvolume).trans (hcount' _ hvolume).symm)

end Measures

theorem Measures.wellFormed_iff {width : String → ℕ} (hm : d.Measures width) :
    d.WellFormed word64 ↔ d.WellFormed id := by
  have hword (n : ℕ) (h : n < 2 ^ 64) : word64 n = n := LayerKind.word64_of_lt h
  exact ⟨fun h ↦ hm.wellFormed h.names_unique h.inputs_known hword (fun _ _ ↦ rfl) h,
    fun h ↦ hm.wellFormed h.names_unique h.inputs_known (fun _ _ ↦ rfl) hword h⟩

/-- The parts of the graph of an accepted description. -/
structure Assembled (d : Description) (layers : Vector (Layer d.length) d.length) (order : List (Fin d.length))
    (input output : Fin d.length) : Prop where
  names_unique : d.NamesUnique
  inputs_known : d.InputsKnown
  perm : order.Perm (List.finRange d.length)
  in_order : InOrder d.edges order
  built : ∀ i, BuiltAt layers i
  input_iff : ∀ i, (d.get i).kind.isInput = true ↔ i = input
  output_iff : ∀ i, (∀ j, i ∉ d.edges j) ↔ i = output

theorem assembled_of_isOk {g : Graph} (h : Graph.ofDescription d = .ok g) :
    ∃ layers order input output, g = ⟨d.length, layers, order, input, output⟩ ∧
      d.Assembled layers order input output := by
  obtain ⟨-, hn, hk, input, order, output, layers, hinput, horder, houtput, hlayers, rfl⟩ :=
    ofDescription_eq_ok_iff.mp h
  obtain ⟨hperm, hin⟩ := topologicalOrder_spec horder
  obtain ⟨hinput, huniq⟩ := only_filter_eq_some_iff.mp hinput
  obtain ⟨houtput, huniq'⟩ := only_filter_eq_some_iff.mp houtput
  refine ⟨layers, order, input, output, rfl, hn, hk, hperm, hin, fun i ↦ ?_, fun i ↦ ?_, fun i ↦ ?_⟩
  · exact builtAt_of_buildAlong hlayers hperm hin i
  · exact ⟨huniq i, fun hi ↦ hi ▸ hinput⟩
  · rw [← isSink_iff]
    exact ⟨huniq' i, fun hi ↦ hi ▸ houtput⟩

namespace Assembled

variable {layers : Vector (Layer d.length) d.length} {order : List (Fin d.length)} {input output : Fin d.length}

theorem acyclic (h : d.Assembled layers order input output) : Acyclic fun i j ↦ j ∈ d.edges i :=
  h.in_order.acyclic h.perm

theorem inputs_eq (h : d.Assembled layers order input output) (i : Fin d.length) :
    (layers.get i).inputs = d.edges i := by
  obtain ⟨op, features, -, hi⟩ := h.built i
  rw [hi]

theorem name_eq (h : d.Assembled layers order input output) (i : Fin d.length) :
    (layers.get i).name = (d.get i).name := by
  obtain ⟨op, features, -, hi⟩ := h.built i
  rw [hi]

theorem build_eq (h : d.Assembled layers order input output) (i : Fin d.length) :
    (d.get i).kind.build ((d.edges i).map fun j ↦ (layers.get j).features) =
      .ok ((layers.get i).op, (layers.get i).features) := by
  obtain ⟨op, features, hbuild, hi⟩ := h.built i
  rw [hbuild, hi]

theorem fits (h : d.Assembled layers order input output) (i : Fin d.length) :
    (d.get i).kind.Fits word64 ((d.edges i).map fun j ↦ (layers.get j).features) (layers.get i).features :=
  LayerKind.build_eq_ok (h.build_eq i)

section Measures

variable {width : String → ℕ} (h : d.Assembled layers order input output) (hm : d.Measures width)
include h hm

theorem features_eq (i : Fin d.length) : (layers.get i).features = width (d.get i).name :=
  hm.eq_of_fits h.names_unique h.inputs_known (fun _ ↦ LayerKind.word64_of_lt) h.acyclic h.fits i

theorem volume_lt (i : Fin d.length) :
    (d.get i).kind.volume ((d.edges i).map fun j ↦ (layers.get j).features) < 2 ^ 64 := by
  rw [List.map_congr_left fun j _ ↦ h.features_eq hm j, map_widths h.names_unique h.inputs_known]
  exact hm.volume_lt _ (index_mem i)

/-- The width of a layer is positive if those of its inputs are. -/
theorem features_pos (i : Fin d.length) : 0 < (layers.get i).features := by
  induction i using h.acyclic.wellFounded.induction with
  | _ i ih =>
    refine (h.fits i).pos (LayerKind.word64_of_lt (h.volume_lt hm i)) fun w hw ↦ ?_
    obtain ⟨j, hj, rfl⟩ := List.mem_map.mp hw
    exact ih j (.single hj)

end Measures

theorem edges_eq_nil_iff (h : d.Assembled layers order input output) (i : Fin d.length) :
    d.edges i = [] ↔ i = input := by
  rw [← h.input_iff, ← (h.fits i).eq_nil_iff, List.map_eq_nil_iff]

end Assembled

theorem wellFormed_of_isOk {g : Graph} (h : Graph.ofDescription d = .ok g) : d.WellFormed word64 := by
  obtain ⟨nonempty, hn, hk, input, order, output, -, hinput, -, houtput, -, -⟩ := ofDescription_eq_ok_iff.mp h
  obtain ⟨layers, order, input', output', rfl, ha⟩ := assembled_of_isOk h
  refine ⟨nonempty, hn, hk, (exists_only_inputLayers_iff hn).mp ⟨input, hinput⟩,
    (acyclic_edges_iff hn hk).mp ha.acyclic, (exists_only_sinks_iff hn).mp ⟨output, houtput⟩,
    d.widthOf layers, fun layer hl ↦ ?_⟩
  obtain ⟨i, rfl⟩ := exists_index hl
  rw [hn.widthOf_name, ← map_widths hn hk]
  simp only [hn.widthOf_name]
  exact ha.fits i

end Description

theorem Acyclic.exists_reflTransGen {n : ℕ} {reads : Fin n → Fin n → Prop} (h : Acyclic reads) (i : Fin n) :
    ∃ j, ReflTransGen reads i j ∧ ∀ k, ¬ reads j k := by
  induction i using h.wellFounded.induction with
  | _ i ih =>
    by_cases hi : ∃ k, reads i k
    · obtain ⟨k, hk⟩ := hi
      obtain ⟨j, hj, hend⟩ := ih k (.single hk)
      exact ⟨j, .head hk hj, hend⟩
    · exact ⟨i, .refl, not_exists.mp hi⟩

theorem Acyclic.swap {α : Type} {reads : α → α → Prop} (h : Acyclic reads) : Acyclic (Function.swap reads) :=
  fun a ha ↦ h a (transGen_swap.mp ha)

namespace Graph

variable {g : Graph} {d : Description}

theorem describes_of_isOk (h : Graph.ofDescription d = .ok g) : g.Describes d := by
  obtain ⟨layers, order, input, output, rfl, ha⟩ := Description.assembled_of_isOk h
  have hinputs : (fun i ↦ (Graph.layer ⟨d.length, layers, order, input, output⟩ i).inputs) = d.edges :=
    funext ha.inputs_eq
  have hreads : Graph.Reads ⟨d.length, layers, order, input, output⟩ = fun i j ↦ j ∈ d.edges i := by
    funext i j
    exact congrArg (j ∈ ·) (ha.inputs_eq i)
  refine ⟨rfl, fun i ↦ ?_, ha.perm, hinputs ▸ ha.in_order, fun i ↦ ?_, fun i ↦ ?_, fun i ↦ ?_, fun i ↦ ?_⟩
  · refine ⟨d.get i, List.getElem?_eq_getElem i.isLt, ha.name_eq i, ?_, ?_⟩
    · rw [congrFun hinputs i, ← Description.map_name_edges ha.names_unique ha.inputs_known i]
      exact List.map_congr_left fun j _ ↦ ha.name_eq j
    · rw [congrFun hinputs i]
      exact ha.build_eq i
  · rw [congrFun hinputs i]
    exact ha.edges_eq_nil_iff i
  · rw [hreads]
    exact ha.output_iff i
  · rw [hreads]
    obtain ⟨j, hj, hend⟩ := ha.acyclic.exists_reflTransGen i
    have hnil : d.edges j = [] := List.eq_nil_iff_forall_not_mem.mpr hend
    exact (ha.edges_eq_nil_iff j).mp hnil ▸ hj
  · rw [hreads]
    obtain ⟨j, hj, hend⟩ := ha.acyclic.swap.exists_reflTransGen i
    exact (ha.output_iff j).mp hend ▸ reflTransGen_swap.mp hj

section Measures

variable {width : String → ℕ} (hm : d.Measures width) (h : Graph.ofDescription d = .ok g)
include hm h

theorem features_eq (i : Fin g.size) : (g.layer i).features = width (g.layer i).name := by
  obtain ⟨layers, order, input, output, rfl, ha⟩ := Description.assembled_of_isOk h
  exact (ha.features_eq hm i).trans (congrArg width (ha.name_eq i).symm)

theorem features_pos (i : Fin g.size) : 0 < (g.layer i).features := by
  obtain ⟨layers, order, input, output, rfl, ha⟩ := Description.assembled_of_isOk h
  exact ha.features_pos hm i

end Measures

end Graph

/-- A description is accepted exactly when it is well formed in words, and its graph describes it. Where no size leaves
a word, this is to be well formed, and every layer has its own width, which is positive. -/
theorem ofDescription_accepts_wellFormed (d : Description) :
    ((∃ g, Graph.ofDescription d = .ok g) ↔ d.WellFormed word64) ∧
    (∀ g, Graph.ofDescription d = .ok g → g.Describes d) ∧
    ∀ width, d.Measures width → ((∃ g, Graph.ofDescription d = .ok g) ↔ d.WellFormed id) ∧
      ∀ g, Graph.ofDescription d = .ok g → ∀ i, (g.layer i).features = width (g.layer i).name ∧
        0 < (g.layer i).features := by
  have hiff : (∃ g, Graph.ofDescription d = .ok g) ↔ d.WellFormed word64 :=
    ⟨fun ⟨_, h⟩ ↦ Description.wellFormed_of_isOk h, Description.isOk_of_wellFormed⟩
  refine ⟨hiff, fun _ ↦ Graph.describes_of_isOk, fun width hm ↦ ⟨hiff.trans hm.wellFormed_iff, fun g h i ↦ ?_⟩⟩
  exact ⟨Graph.features_eq hm h i, Graph.features_pos hm h i⟩

def affine : Description := [⟨"data", [], .input 2⟩, ⟨"unit", ["data"], .dense 1 [0.5, -1.25] (some [0.25]) none none⟩]

def affineGraph : Graph where
  size := 2
  layers := #v[⟨"data", .input, [], 2⟩, ⟨"unit", .dense 2 [0.5, -1.25] [0.25] none none, [0], 1⟩]
  order := [0, 1]
  input := 0
  output := 1

theorem ofDescription_affine : Graph.ofDescription affine = .ok affineGraph := rfl

theorem affine_measures : affine.Measures fun name ↦ if name = "data" then 2 else 1 where
  width_eq := by decide
  volume_lt := by decide

theorem affine_sized : affine.Sized := ⟨_, affine_measures⟩

theorem ofDescription_accepts_wellFormed_affine :
    affine.WellFormed id ∧ 0 < (affineGraph.layer affineGraph.output).features := by
  obtain ⟨-, -, h⟩ := ofDescription_accepts_wellFormed affine
  obtain ⟨hiff, hpos⟩ := h _ affine_measures
  exact ⟨hiff.mp ⟨_, ofDescription_affine⟩, (hpos _ ofDescription_affine _).2⟩

def unweighted : Description := [⟨"data", [], .input (2 ^ 62)⟩, ⟨"unit", ["data"], .dense 4 [] none none none⟩]

/-- The number of weights wraps around to zero, so that none are asked for. -/
theorem ofDescription_accepts_unweighted :
    (∃ g, Graph.ofDescription unweighted = .ok g) ∧ ¬ unweighted.WellFormed id := by
  refine ⟨⟨_, rfl⟩, fun h ↦ ?_⟩
  obtain ⟨width, hfits⟩ := h.fits
  have hdata : (LayerKind.input (2 ^ 62)).Fits id [] (width "data") := hfits _ List.mem_cons_self
  have hunit : (LayerKind.dense 4 [] none none none).Fits id [width "data"] (width "unit") :=
    hfits _ (List.mem_cons_of_mem _ List.mem_cons_self)
  generalize width "data" = features at hdata hunit
  generalize width "unit" = units at hunit
  cases hdata
  cases hunit with
  | dense _ weights_length => simp at weights_length

end FixedNet

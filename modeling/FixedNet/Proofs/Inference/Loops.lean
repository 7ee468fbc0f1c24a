import FixedNet.Proofs.Inference.Agreement
import FixedNet.Proofs.Inference.Grid

namespace FixedNet

namespace Recorded

variable {α β : Type} {P : Event → Prop} {Q : α → Prop} {R : β → Prop}

/-- A property of every recorded operation, and one of the value. -/
structure Ensures (P : Event → Prop) (Q : α → Prop) (r : Recorded α) : Prop where
  all : r.All P
  value : Q r.value

theorem all_true (r : Recorded α) : r.All fun _ ↦ True := fun _ _ ↦ trivial

theorem ensures_pure {a : α} (h : Q a) : (pure a : Recorded α).Ensures P Q := ⟨all_pure a, h⟩

theorem Ensures.mono {Q' : α → Prop} {r : Recorded α} (h : r.Ensures P Q) (hQ : ∀ a, Q a → Q' a) : r.Ensures P Q' :=
  ⟨h.all, hQ _ h.value⟩

theorem Ensures.bind {r : Recorded α} {f : α → Recorded β} (h : r.Ensures P Q) (hf : ∀ a, Q a → (f a).Ensures P R) :
    (r >>= f).Ensures P R :=
  ⟨all_bind.mpr ⟨h.all, (hf _ h.value).all⟩, (hf _ h.value).value⟩

theorem ensures_mapM {f : α → Recorded β} {xs : List α} (h : ∀ x ∈ xs, (f x).Ensures P R) :
    (xs.mapM f).Ensures P fun ys ↦ ∀ y ∈ ys, R y := by
  refine ⟨all_mapM.mpr fun x hx ↦ (h x hx).all, fun y hy ↦ ?_⟩
  rw [mapM_value] at hy
  obtain ⟨x, hx, rfl⟩ := List.mem_map.mp hy
  exact (h x hx).value

theorem ensures_foldlM {step : β → α → Recorded β} {I : List α → β → Prop}
    (hstep : ∀ x rest b, I (x :: rest) b → (step b x).Ensures P (I rest)) {xs : List α} {b : β} (h : I xs b) :
    (xs.foldlM step b).Ensures P (I []) := by
  induction xs generalizing b with
  | nil => exact ensures_pure h
  | cons x xs ih => exact (hstep x xs b h).bind fun c hc ↦ ih hc

theorem ensures_foldlM_of_mem {step : β → α → Recorded β} {xs : List α}
    (hstep : ∀ x ∈ xs, ∀ b, R b → (step b x).Ensures P R) {b : β} (h : R b) : (xs.foldlM step b).Ensures P R := by
  refine (ensures_foldlM (I := fun rest b ↦ R b ∧ rest ⊆ xs) ?_ ⟨h, List.Subset.refl xs⟩).mono fun b hb ↦ hb.1
  rintro x rest b ⟨hb, hsub⟩
  obtain ⟨hx, hrest⟩ := List.cons_subset.mp hsub
  exact (hstep x hx b hb).mono fun c hc ↦ ⟨hc, hrest⟩

end Recorded

variable {P : Event → Prop} {accum result : Format} {acc : Fixed}

theorem recordProducts_eq_foldlM (terms : List (Fixed × Fixed)) : recordProducts accum acc terms =
    terms.foldlM (fun acc p ↦ recordProduct .accum accum p.1 p.2 >>= recordSum .accum accum acc) acc := by
  induction terms generalizing acc with
  | nil => rfl
  | cons p terms ih => simp only [recordProducts, List.foldlM_cons, bind_assoc, ih]

theorem recordTerms_eq_foldlM (xs : List Fixed) :
    recordTerms accum acc xs = xs.foldlM (recordSum .accum accum) acc := by
  induction xs generalizing acc with
  | nil => rfl
  | cons x xs ih => simp only [recordTerms, List.foldlM_cons, ih]

theorem ensures_recordEntries {Q R : Fixed → Prop} {accs xs : List Fixed} (haccs : ∀ a ∈ accs, Q a)
    (hmono : ∀ a, Q a → R a) (hsum : ∀ x ∈ xs, ∀ a, Q a → (recordSum .accum accum a x).Ensures P R) :
    (recordEntries accum accs xs).Ensures P fun ys ↦ ∀ y ∈ ys, R y := by
  have hrest : ∀ a ∈ accs, R a := fun a ha ↦ hmono a (haccs a ha)
  induction accs generalizing xs with
  | nil => exact Recorded.ensures_pure hrest
  | cons acc accs ih =>
    cases xs with
    | nil => exact Recorded.ensures_pure hrest
    | cons x xs =>
      rw [List.forall_mem_cons] at haccs hrest hsum
      refine (hsum.1 acc haccs.1).bind fun y hy ↦ (ih haccs.2 hsum.2 hrest.2).bind fun ys hys ↦ ?_
      exact Recorded.ensures_pure (List.forall_mem_cons.mpr ⟨hy, hys⟩)

theorem length_recordEntries (accum : Format) (accs xs : List Fixed) :
    (recordEntries accum accs xs).value.length = accs.length := by
  induction accs generalizing xs with
  | nil => rfl
  | cons acc accs ih =>
    cases xs with
    | nil => rfl
    | cons x xs =>
      rw [recordEntries]
      simp only [Recorded.bind_value, Recorded.pure_value, List.length_cons, ih]

theorem length_foldlM_recordEntries (accum : Format) (accs : List Fixed) (xss : List (List Fixed)) :
    (xss.foldlM (recordEntries accum) accs).value.length = accs.length := by
  induction xss generalizing accs with
  | nil => rfl
  | cons xs xss ih => rw [List.foldlM_cons, Recorded.bind_value, ih, length_recordEntries]

section

variable (slot : Slot) (f : Format) (x y : Fixed)

theorem all_recordProduct :
    (recordProduct slot f x y).All P ↔ P (.product x y) ∧ P (.narrowing slot f (x.times y)) := by
  rw [recordProduct, Recorded.all_bind, Recorded.all_mul, Recorded.all_narrow]
  rfl

theorem all_recordSum : (recordSum slot f x y).All P ↔ P (.sum x y) ∧ P (.narrowing slot f (x.plus y)) := by
  rw [recordSum, Recorded.all_bind, Recorded.all_add, Recorded.all_narrow]
  rfl

theorem onGrid_recordProduct : (recordProduct slot f x y).value.OnGrid f := Fixed.onGrid_narrow f _

theorem onGrid_recordSum : (recordSum slot f x y).value.OnGrid f := Fixed.onGrid_narrow f _

end

theorem Fixed.OnGrid.recordProducts (hacc : acc.OnGrid accum) {terms : List (Fixed × Fixed)}
    (hproduct : ∀ p ∈ terms, (recordProduct .accum accum p.1 p.2).All P)
    (hsum : ∀ a x, a.OnGrid accum → x.OnGrid accum → (recordSum .accum accum a x).All P) :
    (recordProducts accum acc terms).Ensures P (Fixed.OnGrid accum) := by
  rw [recordProducts_eq_foldlM]
  refine Recorded.ensures_foldlM_of_mem (fun p hp a ha ↦ ?_) hacc
  have hp : (recordProduct .accum accum p.1 p.2).Ensures P (Fixed.OnGrid accum) :=
    ⟨hproduct p hp, onGrid_recordProduct _ _ _ _⟩
  exact hp.bind fun x hx ↦ ⟨hsum a x ha hx, onGrid_recordSum _ _ _ _⟩

theorem Fixed.OnGrid.recordTerms (hacc : acc.OnGrid accum) {xs : List Fixed}
    (hsum : ∀ x ∈ xs, ∀ a, a.OnGrid accum → (recordSum .accum accum a x).All P) :
    (recordTerms accum acc xs).Ensures P (Fixed.OnGrid accum) := by
  rw [recordTerms_eq_foldlM]
  exact Recorded.ensures_foldlM_of_mem (fun x hx a ha ↦ ⟨hsum x hx a ha, onGrid_recordSum _ _ _ _⟩) hacc

theorem onGrid_recordTerms (hacc : acc.OnGrid accum) (xs : List Fixed) :
    (recordTerms accum acc xs).value.OnGrid accum :=
  (hacc.recordTerms fun _ _ _ _ ↦ Recorded.all_true _).value

theorem ensures_foldlM_recordEntries {accs : List Fixed} {xss : List (List Fixed)} (haccs : ∀ a ∈ accs, a.OnGrid accum)
    (hsum : ∀ xs ∈ xss, ∀ x ∈ xs, ∀ a, a.OnGrid accum → (recordSum .accum accum a x).All P) :
    (xss.foldlM (recordEntries accum) accs).Ensures P fun ys ↦ ∀ y ∈ ys, y.OnGrid accum := by
  refine Recorded.ensures_foldlM_of_mem (fun xs hxs as has ↦ ?_) haccs
  exact ensures_recordEntries has (fun a ha ↦ ha) fun x hx a ha ↦ ⟨hsum xs hxs x hx a ha, onGrid_recordSum _ _ _ _⟩

theorem Neuron.all_record {u : Neuron} {inputs : List Fixed} {Q : Fixed → Prop}
    (hzero : P (.narrowing .accum accum .zero))
    (hproducts : (recordProducts accum (Fixed.zero.narrow accum) (inputs.zip u.weights)).Ensures P Q)
    (hscale : ∀ s, u.scale = some s → ∀ a, Q a → P (.product a s)) : (u.record accum inputs).All P := by
  refine Recorded.all_bind.mpr ⟨(Recorded.all_narrow _ _ _).mpr hzero, Recorded.all_bind.mpr ⟨hproducts.all, ?_⟩⟩
  cases hs : u.scale with
  | none => exact Recorded.all_pure _
  | some s => exact (Recorded.all_mul _ s).mpr (hscale s hs _ hproducts.value)

theorem ExpTable.ensures_record {exp : ExpTable} {xs : List Fixed} (h : ∀ x ∈ xs, ∀ y ∈ xs, P (.sum x y.opposite)) :
    (exp.record xs).Ensures P fun es ↦ ∀ e ∈ es, ∃ d, e = exp.lookup d := by
  cases xs with
  | nil => exact Recorded.ensures_pure (List.forall_mem_nil _)
  | cons x xs =>
    refine Recorded.ensures_mapM fun y hy ↦ ?_
    have hsum := h y hy _ (Fixed.foldl_larger_mem x xs)
    exact ⟨Recorded.all_bind.mpr ⟨(Recorded.all_add _ _).mpr hsum, Recorded.all_pure _⟩, _, rfl⟩

theorem ExpTable.exists_lookup_of_mem {exp : ExpTable} {xs : List Fixed} {e : Fixed} (h : e ∈ (exp.record xs).value) :
    ∃ d, e = exp.lookup d :=
  (exp.ensures_record (P := fun _ ↦ True) fun _ _ _ _ ↦ trivial).value e h

theorem all_mapM_narrow {slot : Slot} {f : Format} {xs : List Fixed} :
    (xs.mapM (Recorded.narrow slot f)).All P ↔ ∀ x ∈ xs, P (.narrowing slot f x) := by
  simp only [Recorded.all_mapM, Recorded.all_narrow]

theorem zip_map_self {α β : Type} (f : α → β) (xs : List α) : (xs.map f).zip xs = xs.map fun x ↦ (f x, x) := by
  induction xs with
  | nil => rfl
  | cons x xs ih => rw [List.map_cons, List.zip_cons_cons, ih, List.map_cons]

theorem zip_map_zip {α β γ : Type} (f : α × β → γ) (xs : List α) (ys : List β) :
    ((xs.zip ys).map f).zip ys = (xs.zip ys).map fun p ↦ (f p, p.2) := by
  induction xs generalizing ys with
  | nil => rfl
  | cons x xs ih =>
    cases ys with
    | nil => rfl
    | cons y ys => simp only [List.zip_cons_cons, List.map_cons, ih]

namespace Kernel

variable (row : List Float) {inputs : List (List Fixed)}

theorem all_record_dense {units : List Neuron} (hsum : ∀ u ∈ units, (u.record accum (inputs.head?.getD [])).All P)
    (hbias : ∀ u ∈ units, (recordSum .result result (u.record accum (inputs.head?.getD [])).value u.bias).All P) :
    ((dense units accum result).record row inputs).All P := by
  refine Recorded.all_bind.mpr ⟨Recorded.all_mapM.mpr hsum, Recorded.all_mapM.mpr fun p hp ↦ ?_⟩
  rw [Recorded.mapM_value, zip_map_self] at hp
  obtain ⟨u, hu, rfl⟩ := List.mem_map.mp hp
  exact hbias u hu

theorem all_record_batchNorm {channels : List (Fixed × Fixed)}
    (hscale : ∀ p ∈ (inputs.head?.getD []).zip channels, (recordProduct .accum accum p.1 p.2.1).All P)
    (hshift : ∀ p ∈ (inputs.head?.getD []).zip channels,
      (recordSum .result result (recordProduct .accum accum p.1 p.2.1).value p.2.2).All P) :
    ((batchNorm channels accum result).record row inputs).All P := by
  refine Recorded.all_bind.mpr ⟨Recorded.all_mapM.mpr hscale, Recorded.all_mapM.mpr fun p hp ↦ ?_⟩
  rw [Recorded.mapM_value, zip_map_zip] at hp
  obtain ⟨q, hq, rfl⟩ := List.mem_map.mp hp
  exact hshift q hq

theorem all_record_activation {shape : Shape}
    (h : ∀ x ∈ inputs.head?.getD [], P (.narrowing .result result (shape.apply x))) :
    ((activation shape result).record row inputs).All P := by
  refine all_mapM_narrow.mpr fun y hy ↦ ?_
  obtain ⟨x, hx, rfl⟩ := List.mem_map.mp hy
  exact h x hx

theorem all_record_softmax {exp : ExpTable} {inv : InvTable}
    (hdifference : ∀ x ∈ inputs.head?.getD [], ∀ y ∈ inputs.head?.getD [], P (.sum x y.opposite))
    (hzero : P (.narrowing .accum accum .zero))
    (hsum : (recordTerms accum (Fixed.zero.narrow accum) (exp.record (inputs.head?.getD [])).value).All P)
    (hresult : ∀ d s, (recordProduct .result result (exp.lookup d) (inv.lookup s)).All P) :
    ((softmax exp inv accum result).record row inputs).All P := by
  refine Recorded.all_bind.mpr ⟨(exp.ensures_record hdifference).all,
    Recorded.all_bind.mpr ⟨(Recorded.all_narrow _ _ _).mpr hzero,
    Recorded.all_bind.mpr ⟨hsum, Recorded.all_mapM.mpr fun e he ↦ ?_⟩⟩⟩
  obtain ⟨d, rfl⟩ := exp.exists_lookup_of_mem he
  exact hresult d _

theorem all_record_add (hzero : P (.narrowing .accum accum .zero))
    (hsums : (inputs.foldlM (recordEntries accum)
      ((inputs.head?.getD []).map fun _ ↦ Fixed.zero.narrow accum)).Ensures P
      fun ys ↦ ∀ y ∈ ys, P (.narrowing .result result y)) :
    ((add accum result).record row inputs).All P := by
  refine Recorded.all_bind.mpr ⟨all_mapM_narrow.mpr fun z hz ↦ ?_, ?_⟩
  · obtain ⟨_, -, rfl⟩ := List.mem_map.mp hz
    exact hzero
  · rw [Recorded.mapM_value, List.map_map]
    exact Recorded.all_bind.mpr ⟨hsums.all, all_mapM_narrow.mpr hsums.value⟩

theorem all_record_concatenate (h : ∀ xs ∈ inputs, ∀ x ∈ xs, P (.narrowing .result result x)) :
    ((concatenate result).record row inputs).All P := by
  refine all_mapM_narrow.mpr fun x hx ↦ ?_
  obtain ⟨xs, hxs, hx⟩ := List.mem_flatten.mp hx
  exact h xs hxs x hx

end Kernel

end FixedNet

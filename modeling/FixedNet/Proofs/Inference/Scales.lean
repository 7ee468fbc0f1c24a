import FixedNet.Proofs.Inference.Compiled

namespace FixedNet

/-- At most `b` fractional bits, and not fewer than `-b`. -/
def Fixed.Scaled (b : ℤ) (x : Fixed) : Prop := -b ≤ x.frac ∧ x.frac ≤ b

instance (b : ℤ) (x : Fixed) : Decidable (x.Scaled b) := inferInstanceAs (Decidable (_ ∧ _))

def Event.operands : Event → List Fixed
  | product x y => [x, y]
  | sum x y => [x, y]
  | narrowing _ _ x => [x]

/-- Whether sums and differences of the bit counts, also with that of a format, stay small. -/
def Event.Scaled (e : Event) : Prop := ∀ x ∈ e.operands, x.Scaled 512

namespace Fixed

variable {x y : Fixed} {b c : ℤ}

theorem Scaled.mono (h : x.Scaled b) (hbc : b ≤ c) : x.Scaled c := by
  unfold Scaled at h ⊢
  omega

theorem Scaled.times (hx : x.Scaled b) (hy : y.Scaled c) : (x.times y).Scaled (b + c) := by
  unfold Scaled at hx hy ⊢
  dsimp only [Fixed.times]
  omega

theorem Scaled.plus (hx : x.Scaled b) (hy : y.Scaled b) : (x.plus y).Scaled b := by
  unfold Scaled at hx hy ⊢
  dsimp only [Fixed.plus]
  omega

theorem OnGrid.scaled {f : Format} (h : x.OnGrid f) : x.Scaled 128 := by
  have hf := f.frac_bounds
  unfold Scaled
  rw [h.frac_eq]
  omega

theorem Scaled.decoded (h : x.Scaled 128) : x.decoded.Scaled 128 := by
  unfold Scaled at h ⊢
  rw [decoded_frac]
  omega

theorem scaled_zero : zero.Scaled 128 := by decide

end Fixed

theorem Format.IsWeight.scaled {f : Format} {encoding : Encoding} {w : Fixed} (h : f.IsWeight encoding w) :
    w.Scaled 128 := by
  cases encoding with
  | direct => exact Fixed.OnGrid.scaled h
  | xnor =>
    obtain ⟨c, -, rfl⟩ := h
    exact Fixed.Scaled.decoded (Fixed.OnGrid.scaled (f := f) ⟨rfl, f.reduce_inRange _⟩)

theorem Shape.scaled_apply (s : Shape) {x : Fixed} (h : x.Scaled 128) : (s.apply x).Scaled 128 := by
  unfold apply
  cases s with
  | linear => exact h
  | relu | sign | cut =>
    dsimp only
    split_ifs <;> first | exact h | decide

theorem Event.scaled_of_pair {x y : Fixed} (hx : x.Scaled 512) (hy : y.Scaled 512) : ∀ z ∈ [x, y], z.Scaled 512 := by
  simp [hx, hy]

theorem scaled_narrowing {slot : Slot} {f : Format} {x : Fixed} (hx : x.Scaled 512) :
    (Event.narrowing slot f x).Scaled := by
  simp [Event.Scaled, Event.operands, hx]

theorem scaled_recordProduct {slot : Slot} {f : Format} {x y : Fixed} (hx : x.Scaled 256) (hy : y.Scaled 256) :
    (recordProduct slot f x y).All Event.Scaled :=
  (all_recordProduct _ _ _ _).mpr ⟨Event.scaled_of_pair (hx.mono (by norm_num)) (hy.mono (by norm_num)),
    scaled_narrowing (hx.times hy)⟩

theorem scaled_recordSum {slot : Slot} {f : Format} {x y : Fixed} (hx : x.Scaled 256) (hy : y.Scaled 256) :
    (recordSum slot f x y).All Event.Scaled :=
  (all_recordSum _ _ _ _).mpr ⟨Event.scaled_of_pair (hx.mono (by norm_num)) (hy.mono (by norm_num)),
    scaled_narrowing ((hx.plus hy).mono (by norm_num))⟩

theorem Fixed.OnGrid.scaled_recordSum {slot : Slot} {accum f : Format} {acc x : Fixed} (hacc : acc.OnGrid accum)
    (hx : x.Scaled 256) : (recordSum slot f acc x).All Event.Scaled :=
  FixedNet.scaled_recordSum (hacc.scaled.mono (by norm_num)) hx

theorem scaled_zero_narrowing {slot : Slot} {f : Format} : (Event.narrowing slot f .zero).Scaled :=
  scaled_narrowing (Fixed.scaled_zero.mono (by norm_num))

theorem scaled_head {xss : List (List Fixed)} {b : ℤ} (h : ∀ xs ∈ xss, ∀ x ∈ xs, x.Scaled b) :
    ∀ x ∈ xss.head?.getD [], x.Scaled b := by
  cases xss with
  | nil => simp
  | cons xs xss => exact h xs List.mem_cons_self

theorem Neuron.OnGrids.scaled_record {u : Neuron} {formats : SlotMap Format} {encoding : Encoding} {inFeatures : ℕ}
    (hu : u.OnGrids formats encoding inFeatures) (accum : Format) {xs : List Fixed} (h : ∀ x ∈ xs, x.Scaled 128) :
    (u.record accum xs).Ensures Event.Scaled (Fixed.Scaled 256) := by
  obtain ⟨f, -, hweights⟩ := hu.weights
  have hproducts : (recordProducts accum (Fixed.zero.narrow accum) (xs.zip u.weights)).Ensures Event.Scaled
      (Fixed.OnGrid accum) := by
    refine (Fixed.onGrid_narrow accum .zero).recordProducts (fun p hp ↦ ?_) fun a x ha hx ↦
      ha.scaled_recordSum (hx.scaled.mono (by norm_num))
    obtain ⟨hx, hw⟩ := List.of_mem_zip hp
    exact scaled_recordProduct ((h _ hx).mono (by norm_num)) ((hweights _ hw).scaled.mono (by norm_num))
  refine ⟨all_record scaled_zero_narrowing hproducts fun s hs a ha ↦ ?_, ?_⟩
  · obtain ⟨f, -, hscale⟩ := hu.scale s hs
    exact Event.scaled_of_pair (ha.scaled.mono (by norm_num)) (hscale.scaled.mono (by norm_num))
  · unfold record
    cases hs : u.scale with
    | none => exact hproducts.value.scaled.mono (by norm_num)
    | some s =>
      obtain ⟨f, -, hscale⟩ := hu.scale s hs
      exact hproducts.value.scaled.times hscale.scaled

theorem Layer.Compiles.scaled_record {n : ℕ} {layer : Layer n} {formats : SlotMap Format} {k : Kernel}
    (hk : layer.Compiles formats k) (row : List Float) {inputs : List (List Fixed)}
    (h : ∀ xs ∈ inputs, ∀ x ∈ xs, x.Scaled 128) : (k.record row inputs).All Event.Scaled := by
  have hfirst := scaled_head h
  cases hk with
  | input => exact Recorded.all_pure _
  | @dense _ _ _ _ _ units accum result _ _ _ hunits =>
    have hsum (u) (hu : u ∈ units) := (hunits u hu).scaled_record accum hfirst
    refine Kernel.all_record_dense row (fun u hu ↦ (hsum u hu).all) fun u hu ↦ ?_
    obtain ⟨f, -, hbias⟩ := (hunits u hu).bias
    exact scaled_recordSum (hsum u hu).value (hbias.scaled.mono (by norm_num))
  | @batchNorm _ _ channels scale bias accum result _ _ _ _ _ hchannels =>
    refine Kernel.all_record_batchNorm row (fun p hp ↦ ?_) fun p hp ↦ ?_
    · obtain ⟨hx, hc⟩ := List.of_mem_zip hp
      exact scaled_recordProduct ((hfirst _ hx).mono (by norm_num)) ((hchannels _ hc).1.scaled.mono (by norm_num))
    · obtain ⟨-, hc⟩ := List.of_mem_zip hp
      exact (onGrid_recordProduct _ _ _ _).scaled_recordSum ((hchannels _ hc).2.scaled.mono (by norm_num))
  | @activation function result =>
    exact Kernel.all_record_activation row fun x hx ↦
      scaled_narrowing ((function.shape.scaled_apply (hfirst x hx)).mono (by norm_num))
  | @softmax exp inv expFormat invFormat accum result _ _ _ _ _ hexps hinvs =>
    refine Kernel.all_record_softmax row (fun x hx y hy ↦ ?_) scaled_zero_narrowing ?_ fun d s ↦ ?_
    · have hopposite : y.opposite.Scaled 128 := hfirst y hy
      exact Event.scaled_of_pair ((hfirst x hx).mono (by norm_num)) (hopposite.mono (by norm_num))
    · refine ((Fixed.onGrid_narrow accum .zero).recordTerms fun e he a ha ↦ ?_).all
      obtain ⟨d, rfl⟩ := exp.exists_lookup_of_mem he
      exact ha.scaled_recordSum ((hexps d).scaled.mono (by norm_num))
    · exact scaled_recordProduct ((hexps d).scaled.mono (by norm_num)) ((hinvs s).scaled.mono (by norm_num))
  | @add accum result =>
    have hsums : (inputs.foldlM (recordEntries accum)
        ((inputs.head?.getD []).map fun _ ↦ Fixed.zero.narrow accum)).Ensures Event.Scaled fun ys ↦
          ∀ y ∈ ys, y.OnGrid accum :=
      ensures_foldlM_recordEntries (List.forall_mem_map.mpr fun _ _ ↦ Fixed.onGrid_narrow accum _)
        fun xs hxs x hx a ha ↦ ha.scaled_recordSum ((h xs hxs x hx).mono (by norm_num))
    exact Kernel.all_record_add row scaled_zero_narrowing (hsums.mono fun ys hys y hy ↦
      scaled_narrowing ((hys y hy).scaled.mono (by norm_num)))
  | concatenate =>
    exact Kernel.all_record_concatenate row fun xs hxs x hx ↦ scaled_narrowing ((h xs hxs x hx).mono (by norm_num))

theorem scaled_recordDecoded (decode : Bool) {xs : List Fixed} (h : ∀ x ∈ xs, x.Scaled 128) :
    (recordDecoded decode xs).Ensures Event.Scaled fun ys ↦ ∀ y ∈ ys, y.Scaled 128 := by
  refine ⟨all_recordDecoded.mpr fun _ x hx ↦ ?_, ?_⟩
  · have hx := h x hx
    exact ⟨Event.scaled_of_pair (hx.mono (by norm_num)) (hx.mono (by norm_num)),
      Event.scaled_of_pair ((hx.plus hx).mono (by norm_num)) (by decide)⟩
  · rw [value_recordDecoded]
    cases decode with
    | false => exact h
    | true => exact List.forall_mem_map.mpr fun x hx ↦ (h x hx).decoded

theorem Step.scaled_record {n : ℕ} {s : Step n} {layer : Layer n} {formats : SlotMap Format}
    (hs : layer.Compiles formats s.kernel) (row : List Float) {values : Vector (List Fixed) n} {grids : Fin n → Format}
    (h : ∀ i, ∀ x ∈ values.get i, x.OnGrid (grids i)) : (s.record row values).All Event.Scaled := by
  have hinputs : (s.recordInputs values).Ensures Event.Scaled fun xss ↦ ∀ xs ∈ xss, ∀ x ∈ xs, x.Scaled 128 :=
    Recorded.ensures_mapM fun i _ ↦ scaled_recordDecoded i.2 fun x hx ↦ (h i.1 x hx).scaled
  exact Recorded.all_bind.mpr ⟨hinputs.all, hs.scaled_record row hinputs.value⟩

end FixedNet

import FixedNet.Inference.Batch
import FixedNet.Proofs.Binary64.Order
import FixedNet.Proofs.Inference.Filling

namespace FixedNet

open Binary64 (rank lt_iff_rank le_iff_rank isNaN_of_lt isNaN_of_le)

/-- A number stands there, no entry is larger, and every number before it is smaller. -/
def IsFirstLargest (xs : List Float) (i : ℕ) : Prop :=
  ∃ v, xs[i]? = some v ∧ v.isNaN = false ∧ (∀ w ∈ xs, ¬ v < w) ∧ ∀ w ∈ xs.take i, w.isNaN = false → w < v

/-- The entry that is in the lead at the end, and its place. -/
def leader (xs : List Float) : Option (Float × ℕ) :=
  xs.zipIdx.foldl (fun best p ↦ if best.any (p.1 ≤ ·.1) then best else some p) none

variable {xs : List Float} {x v w : Float} {i j : ℕ}

theorem argmax_eq (xs : List Float) : argmax xs = (leader xs).map Prod.snd := by
  unfold argmax leader
  congr 2
  funext best p
  cases best with
  | none => simp
  | some b => simp

theorem leader_concat (xs : List Float) (x : Float) :
    leader (xs ++ [x]) = if (leader xs).any (x ≤ ·.1) then leader xs else some (x, xs.length) := by
  unfold leader
  rw [List.zipIdx_append, List.foldl_append, List.zipIdx_singleton, Nat.zero_add]
  rfl

theorem leader_eq_none_iff : leader xs = none ↔ xs = [] := by
  induction xs using List.reverseRecOn with
  | nil => simp [leader]
  | append_singleton xs x ih =>
    rw [leader_concat]
    split
    case isTrue hkept =>
      obtain ⟨b, hb, -⟩ := (Option.any_eq_true _ _).mp hkept
      simp [hb]
    case isFalse => simp

theorem leader_spec (h : leader xs = some (v, i)) : xs[i]? = some v ∧ ∀ w ∈ xs.drop (i + 1), w ≤ v := by
  induction xs using List.reverseRecOn with
  | nil => cases h
  | append_singleton xs x ih =>
    rw [leader_concat] at h
    split at h
    case isTrue hkept =>
      obtain ⟨hv, hlater⟩ := ih h
      have hi : i < xs.length := (List.getElem?_eq_some_iff.mp hv).1
      refine ⟨by rw [List.getElem?_append_left hi, hv], fun w hw ↦ ?_⟩
      rw [List.drop_append_of_le_length hi] at hw
      rcases List.mem_append.mp hw with hw | hw
      · exact hlater w hw
      · obtain rfl := List.mem_singleton.mp hw
        simpa [h] using hkept
    case isFalse =>
      cases h
      refine ⟨List.getElem?_concat_length, fun w hw ↦ ?_⟩
      rw [List.drop_eq_nil_of_le (by simp)] at hw
      cases hw

theorem IsFirstLargest.lt_length (h : IsFirstLargest xs i) : i < xs.length := by
  obtain ⟨v, hv, -⟩ := h
  exact (List.getElem?_eq_some_iff.mp hv).1

theorem le_of_not_lt (hv : v.isNaN = false) (hw : w.isNaN = false) (h : ¬ v < w) : w ≤ v := by
  rw [lt_iff_rank hv hw, not_lt] at h
  exact (le_iff_rank hw hv).mpr h

/-- Two places would each hold the smaller number. -/
theorem IsFirstLargest.unique (hi : IsFirstLargest xs i) (hj : IsFirstLargest xs j) : i = j := by
  have hle {i j : ℕ} (hi : IsFirstLargest xs i) (hj : IsFirstLargest xs j) : ¬ i < j := by
    intro hlt
    obtain ⟨v, hv, hvnum, hlargest, -⟩ := hi
    obtain ⟨w, hw, -, -, hfirst⟩ := hj
    have hmem : v ∈ xs.take j := List.mem_of_getElem? (by rw [List.getElem?_take_of_lt hlt, hv])
    exact hlargest w (List.mem_of_getElem? hw) (hfirst v hmem hvnum)
  exact le_antisymm (not_lt.mp (hle hj hi)) (not_lt.mp (hle hi hj))

theorem IsFirstLargest.leader_eq (h : IsFirstLargest xs i) (hlater : ∀ w ∈ xs.drop (i + 1), w.isNaN = false) :
    ∃ v, leader xs = some (v, i) := by
  induction xs using List.reverseRecOn with
  | nil => exact absurd h.lt_length (Nat.not_lt_zero i)
  | append_singleton xs x ih =>
    have hlength := h.lt_length
    rw [List.length_append, List.length_singleton] at hlength
    obtain ⟨v, hv, hnum, hlargest, hfirst⟩ := h
    rcases Nat.lt_succ_iff_lt_or_eq.mp hlength with hi | rfl
    · -- the entry that is added does not exceed the lead
      rw [List.drop_append_of_le_length hi] at hlater
      rw [List.getElem?_append_left hi] at hv
      rw [List.take_append_of_le_length hi.le] at hfirst
      obtain ⟨b, hb⟩ := ih ⟨v, hv, hnum, fun w hw ↦ hlargest w (List.mem_append_left _ hw), hfirst⟩
        fun w hw ↦ hlater w (List.mem_append_left _ hw)
      obtain rfl : b = v := Option.some.inj ((leader_spec hb).1.symm.trans hv)
      have hx : x ≤ b := le_of_not_lt hnum (hlater x (by simp)) (hlargest x (by simp))
      exact ⟨b, by rw [leader_concat, if_pos (by simp [hb, hx]), hb]⟩
    · -- the entry that is added exceeds every number before it
      obtain rfl : x = v := Option.some.inj (List.getElem?_concat_length.symm.trans hv)
      refine ⟨x, ?_⟩
      rw [leader_concat, if_neg]
      intro hkept
      obtain ⟨⟨b, j⟩, hb, hle⟩ := (Option.any_eq_true _ _).mp hkept
      have hle' : x ≤ b := by simpa using hle
      have hbnum := (isNaN_of_le hle').2
      have hmem : b ∈ xs := List.mem_of_getElem? (leader_spec hb).1
      have hlt := hfirst b (by simpa using hmem) hbnum
      rw [lt_iff_rank hbnum hnum] at hlt
      rw [le_iff_rank hnum hbnum] at hle'
      exact hlt.not_ge hle'

theorem IsFirstLargest.concat (h : IsFirstLargest xs i) (hx : ∀ v, xs[i]? = some v → ¬ v < x) :
    IsFirstLargest (xs ++ [x]) i := by
  have hi := h.lt_length
  obtain ⟨v, hv, hnum, hlargest, hfirst⟩ := h
  refine ⟨v, by rw [List.getElem?_append_left hi, hv], hnum, fun w hw ↦ ?_, ?_⟩
  · rcases List.mem_append.mp hw with hw | hw
    · exact hlargest w hw
    · obtain rfl := List.mem_singleton.mp hw
      exact hx v hv
  · rwa [List.take_append_of_le_length hi.le]

theorem isFirstLargest_length (hx : x.isNaN = false) (h : ∀ w ∈ xs, w.isNaN = false → w < x) :
    IsFirstLargest (xs ++ [x]) xs.length := by
  refine ⟨x, List.getElem?_concat_length, hx, fun w hw hlt ↦ ?_, by simpa using h⟩
  have hwnum := (isNaN_of_lt hlt).2
  rw [lt_iff_rank hx hwnum] at hlt
  rcases List.mem_append.mp hw with hw | hw
  · have hback := h w hw hwnum
    rw [lt_iff_rank hwnum hx] at hback
    exact hlt.not_gt hback
  · obtain rfl := List.mem_singleton.mp hw
    exact hlt.false

theorem exists_isFirstLargest (h : ∃ x ∈ xs, x.isNaN = false) : ∃ i, IsFirstLargest xs i := by
  induction xs using List.reverseRecOn with
  | nil =>
    obtain ⟨x, hx, -⟩ := h
    cases hx
  | append_singleton xs x ih =>
    by_cases hbefore : ∃ y ∈ xs, y.isNaN = false
    · obtain ⟨i, hi⟩ := ih hbefore
      have ⟨v, hv, hnum, hlargest, _⟩ := hi
      by_cases hlt : v < x
      · -- what the lead was not exceeded by, the entry exceeds
        have hxnum := (isNaN_of_lt hlt).2
        refine ⟨xs.length, isFirstLargest_length hxnum fun w hw hwnum ↦ ?_⟩
        have hle := le_of_not_lt hnum hwnum (hlargest w hw)
        rw [le_iff_rank hwnum hnum] at hle
        rw [lt_iff_rank hnum hxnum] at hlt
        exact (lt_iff_rank hwnum hxnum).mpr (hle.trans_lt hlt)
      · refine ⟨i, hi.concat fun w hw ↦ ?_⟩
        obtain rfl := Option.some.inj (hv.symm.trans hw)
        exact hlt
    · obtain ⟨y, hy, hynum⟩ := h
      rcases List.mem_append.mp hy with hy | hy
      · exact absurd ⟨y, hy, hynum⟩ hbefore
      · obtain rfl := List.mem_singleton.mp hy
        exact ⟨xs.length, isFirstLargest_length hynum fun w hw hwnum ↦ absurd ⟨w, hw, hwnum⟩ hbefore⟩

theorem IsFirstLargest.argmax_eq_iff (h : IsFirstLargest xs i) :
    argmax xs = some i ↔ ∀ w ∈ xs.drop (i + 1), w.isNaN = false := by
  rw [argmax_eq]
  constructor
  · intro hi w hw
    obtain ⟨⟨v, j⟩, hleader, rfl⟩ := Option.map_eq_some_iff.mp hi
    exact (isNaN_of_le ((leader_spec hleader).2 w hw)).1
  · intro hlater
    obtain ⟨v, hv⟩ := h.leader_eq hlater
    rw [hv]
    rfl

/-- Just the empty list has no largest entry. Of a list with a number in it one place is that of the first largest
number, and this is the answer if and only if no NaN follows it. No answer is followed by NaN. -/
theorem argmax_finds_first_largest (xs : List Float) :
    (argmax xs = none ↔ xs = []) ∧
    ((∃ x ∈ xs, x.isNaN = false) → ∃ i, (∀ j, IsFirstLargest xs j ↔ j = i) ∧
      (argmax xs = some i ↔ ∀ w ∈ xs.drop (i + 1), w.isNaN = false)) ∧
    ∀ i, argmax xs = some i → ∀ w ∈ xs.drop (i + 1), w.isNaN = false := by
  refine ⟨?_, ?_, ?_⟩
  · rw [argmax_eq, Option.map_eq_none_iff, leader_eq_none_iff]
  · intro hnum
    obtain ⟨i, hi⟩ := exists_isFirstLargest hnum
    refine ⟨i, fun j ↦ ⟨fun hj ↦ hj.unique hi, ?_⟩, hi.argmax_eq_iff⟩
    rintro rfl
    exact hi
  · intro i hi w hw
    rw [argmax_eq] at hi
    obtain ⟨⟨v, j⟩, hleader, rfl⟩ := Option.map_eq_some_iff.mp hi
    exact (isNaN_of_le ((leader_spec hleader).2 w hw)).1

theorem argmax_finds_first_largest_infinity :
    (∃ x ∈ [(1 : Float), 1 / 0, 1 / 0], x.isNaN = false) ∧
      ∃ i, (∀ j, IsFirstLargest [(1 : Float), 1 / 0, 1 / 0] j ↔ j = i) ∧
        argmax [(1 : Float), 1 / 0, 1 / 0] = some i := by
  have hnum : ∀ x ∈ [(1 : Float), 1 / 0, 1 / 0], x.isNaN = false := by decide +kernel
  have hsome : ∃ x ∈ [(1 : Float), 1 / 0, 1 / 0], x.isNaN = false := ⟨1, by simp, by decide +kernel⟩
  obtain ⟨i, hi, hanswer⟩ := (argmax_finds_first_largest [(1 : Float), 1 / 0, 1 / 0]).2.1 hsome
  exact ⟨hsome, i, hi, hanswer.mpr fun w hw ↦ hnum w (List.mem_of_mem_drop hw)⟩

/-- The largest number stands first, but the answer is the number after the NaN, or the NaN itself. -/
theorem argmax_passes_largest :
    IsFirstLargest [5, 0 / 0, 3] 0 ∧ argmax [5, 0 / 0, 3] = some 2 ∧
      IsFirstLargest [5, 0 / 0] 0 ∧ argmax [5, 0 / 0] = some 1 := by
  refine ⟨⟨5, rfl, by decide +kernel, by decide +kernel, by simp⟩, by decide +kernel,
    ⟨5, rfl, by decide +kernel, by decide +kernel, by simp⟩, by decide +kernel⟩

theorem argmaxes_of_predict {d : Description} {g : Graph} {t : Typing g} {p : Plan} (hg : Graph.ofDescription d = .ok g)
    (hsize : d.Sized) (hp : g.compile t = .ok p) {rows : List (List Float)} {row : List Float} {k : ℕ}
    (hrow : rows[k]? = some row) :
    (∃ e, p.predictRow row = .error e ∧ (p.predict rows).argmaxes[k]? = some none) ∨
      ∃ out i, p.predictRow row = .ok out ∧ IsFirstLargest out i ∧ (p.predict rows).argmaxes[k]? = some (some i) := by
  have hentry : (p.predict rows).argmaxes[k]? = some ((p.predictRow row).toOption.bind argmax) := by
    simp [Plan.predict, Batch.argmaxes, hrow]
  rw [hentry]
  cases hout : p.predictRow row with
  | error e => exact .inl ⟨e, rfl, rfl⟩
  | ok out =>
    have hm := Graph.measured hg hsize
    obtain ⟨steps, rfl, hsteps⟩ := Graph.exists_plan_of_compile hp
    obtain ⟨xs, rfl, hlength, f, -, hgrid⟩ := Graph.filled_of_predictRow hg hm hsteps hout
    have hnum : ∀ y ∈ xs.map Fixed.toFloat, y.isNaN = false := by
      intro y hy
      obtain ⟨x, hx, rfl⟩ := List.mem_map.mp hy
      exact Binary64.isNaN_of_isFinite (hgrid x hx).represents_toFloat.1
    have hpos : 0 < (xs.map Fixed.toFloat).length := by
      rw [List.length_map, hlength]
      exact hm.features_pos g.output
    obtain ⟨y, hy⟩ := List.exists_mem_of_length_pos hpos
    obtain ⟨i, hi⟩ := exists_isFirstLargest ⟨y, hy, hnum y hy⟩
    have hanswer := hi.argmax_eq_iff.mpr fun w hw ↦ hnum w (List.mem_of_mem_drop hw)
    exact .inr ⟨_, i, rfl, hi, congrArg some hanswer⟩

end FixedNet

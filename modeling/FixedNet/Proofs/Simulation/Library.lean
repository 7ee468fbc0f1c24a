import FixedNet.Proofs.Outcome
import FixedNet.Simulation.RowMajor
import FixedNet.Simulation.Projection

namespace FixedNet

/-- Nothing is refused, and what is given has these dimensions. -/
def Gives {ε α : Type} (dims : α → List ℕ) (outcome : Except ε α) (shape : List ℕ) : Prop :=
  ∃ a, outcome = .ok a ∧ dims a = shape

theorem Gives.bind {ε α β : Type} {dims : α → List ℕ} {dims' : β → List ℕ} {outcome : Except ε α}
    {f : α → Except ε β} {shape shape' : List ℕ} (h : Gives dims outcome shape)
    (hf : ∀ a, dims a = shape → Gives dims' (f a) shape') : Gives dims' (outcome >>= f) shape' := by
  obtain ⟨a, rfl, ha⟩ := h
  exact hf a ha

namespace RowMajor

variable {m n : ℕ}

theorem reduce_eq {op : Reduction} {x : RowMajor Float} (hx : x.dims = [m, n]) (h : word64 (m * n) ≠ 0) :
    reduce op x = .ok ⟨[m, 1], (x.rows m n).map op.apply⟩ := by
  simp [reduce, hx, h]

theorem zipRepeated_column {α β : Type} (f : α → α → β) {x y : RowMajor α} (hx : x.dims = [m, n])
    (hy : y.dims = [m, 1]) : zipRepeated f x y = .ok ⟨[m, n], List.zipWith f x.entries (y.repeated m n m 1)⟩ := by
  simp [zipRepeated, hx, hy]

theorem flat_column {α : Type} {x : RowMajor α} (hx : x.dims = [m, 1]) :
    (⟨[x.dims.foldl (· * ·) 1], x.entries⟩ : RowMajor α) = ⟨[m], x.entries⟩ := by
  simp [hx]

end RowMajor

namespace TensorLibrary

variable {T : TensorLibrary} {m n : ℕ} {w x y : T.Tensor}

/-- Operations on tensors of matching dimensions succeed, and give tensors of the dimensions that are documented. -/
structure Lawful (T : TensorLibrary) : Prop where
  /-- Counts are compared as words. -/
  fromList : ∀ values m n, word64 values.length = word64 (m * n) → Gives T.dims (T.fromList values [m, n]) [m, n]
  map : ∀ op x, Gives T.dims (T.map op x) (T.dims x)
  affine : ∀ x factor offset, Gives T.dims (T.affine x factor offset) (T.dims x)
  clamp : ∀ x low high, Gives T.dims (T.clamp x low high) (T.dims x)
  combine : ∀ op x y, T.dims x = T.dims y → Gives T.dims (T.combine op x y) (T.dims x)
  broadcast : ∀ op x y m n, T.dims x = [m, n] → T.dims y = [m, 1] → Gives T.dims (T.broadcast op x y) [m, n]
  compare : ∀ op x bound, Gives T.maskDims (T.compare op x bound) (T.dims x)
  broadcastCompare : ∀ op x y m n, T.dims x = [m, n] → T.dims y = [m, 1] →
    Gives T.maskDims (T.broadcastCompare op x y) [m, n]
  toNumbers : ∀ mask, Gives T.dims (T.toNumbers mask) (T.maskDims mask)
  select : ∀ mask x y, T.maskDims mask = T.dims x → T.dims x = T.dims y → Gives T.dims (T.select mask x y) (T.dims x)
  flatten : ∀ x m, T.dims x = [m, 1] → Gives T.dims (T.flatten x) [m]

/-- Rows of this size are reduced to one number each. There may be none that could be reduced. -/
def Reduces (T : TensorLibrary) (m n : ℕ) : Prop :=
  ∀ op x, T.dims x = [m, n] → Gives T.dims (T.reduce op x) [m, 1]

theorem reduces_rowMajor (hm : 0 < m) (hn : 0 < n) (h : m * n < 2 ^ 64) : rowMajor.Reduces m n := by
  have hcount : word64 (m * n) ≠ 0 := by
    rw [word64, Nat.mod_eq_of_lt h]
    exact (Nat.mul_pos hm hn).ne'
  exact fun _ _ hx ↦ ⟨_, RowMajor.reduce_eq hx hcount, rfl⟩

theorem lawful_rowMajor : rowMajor.Lawful where
  fromList values m n h := ⟨⟨[m, n], values⟩, if_pos (by simpa using h), rfl⟩
  map _ _ := ⟨_, rfl, rfl⟩
  affine _ _ _ := ⟨_, rfl, rfl⟩
  clamp _ _ _ := ⟨_, rfl, rfl⟩
  combine _ _ _ h := ⟨_, if_pos h, rfl⟩
  broadcast _ _ _ _ _ hx hy := ⟨_, RowMajor.zipRepeated_column _ hx hy, rfl⟩
  compare _ _ _ := ⟨_, rfl, rfl⟩
  broadcastCompare _ _ _ _ _ hx hy := ⟨_, RowMajor.zipRepeated_column _ hx hy, rfl⟩
  toNumbers _ := ⟨_, rfl, rfl⟩
  select _ _ _ hmask hxy := ⟨_, if_pos ⟨hmask, hxy⟩, rfl⟩
  flatten x m hx := ⟨⟨[m], x.entries⟩, congrArg Except.ok (RowMajor.flat_column hx), rfl⟩

namespace Lawful

variable (h : T.Lawful)

include h

theorem roundHalfEven (x : T.Tensor) : Gives T.dims (T.roundHalfEven x) (T.dims x) := by
  refine (h.map .round x).bind fun nearest hnearest ↦ (h.affine x 0.5 0).bind fun half hhalf ↦ ?_
  refine (h.map .round half).bind fun rounded hrounded ↦ (h.affine rounded 2 0).bind fun even heven ↦ ?_
  refine (h.map .floor x).bind fun floor hfloor ↦ (h.combine .sub x floor hfloor.symm).bind fun part hpart ↦ ?_
  refine (h.compare .eq part 0.5).bind fun tie htie ↦ ?_
  have hdims : T.dims even = T.dims x := by rw [heven, hrounded, hhalf]
  rw [← hdims]
  exact h.select tie even nearest (by rw [htie, hpart, hdims]) (by rw [hdims, hnearest])

theorem bipolar (x : T.Tensor) : Gives T.dims (T.bipolar x) (T.dims x) := by
  refine (h.compare .ge x 0).bind fun mask hmask ↦ (h.toNumbers mask).bind fun numbers hnumbers ↦ ?_
  rw [← hmask, ← hnumbers]
  exact h.affine numbers 2 (-1)

theorem ternary (x : T.Tensor) (cut : Float) : Gives T.dims (T.ternary x cut) (T.dims x) := by
  refine (h.compare .gt x cut).bind fun above habove ↦ (h.toNumbers above).bind fun up hup ↦ ?_
  refine (h.compare .lt x (-cut)).bind fun below hbelow ↦ (h.toNumbers below).bind fun down hdown ↦ ?_
  rw [← habove, ← hup]
  exact h.combine .sub up down (by rw [hup, habove, hdown, hbelow])

theorem uniform (q : Uniform) (x : T.Tensor) : Gives T.dims (T.uniform q x) (T.dims x) := by
  unfold TensorLibrary.uniform
  split
  · exact h.bipolar x
  · refine (h.affine x _ 0).bind fun scaled hscaled ↦ (h.roundHalfEven scaled).bind fun levels hlevels ↦ ?_
    refine (h.clamp levels _ _).bind fun clamped hclamped ↦ ?_
    rw [← hscaled, ← hlevels, ← hclamped]
    exact h.affine clamped _ 0

theorem positiveOrOne (x : T.Tensor) : Gives T.dims (T.positiveOrOne x) (T.dims x) :=
  (h.compare .gt x 0).bind fun mask hmask ↦ (h.map .one x).bind fun ones hones ↦ h.select mask x ones hmask hones.symm

theorem uniformAuto (q : Uniform) (hreduces : T.Reduces m n) (hw : T.dims w = [m, n]) :
    Gives T.dims (T.uniformAuto q w) [m, n] := by
  refine (h.map .abs w).bind fun magnitude hmagnitude ↦ ?_
  refine (hreduces .max magnitude (hmagnitude.trans hw)).bind fun peak hpeak ↦ ?_
  refine (h.affine peak _ 0).bind fun scaled hscaled ↦ (h.positiveOrOne scaled).bind fun scale hscale ↦ ?_
  have hdims : T.dims scale = [m, 1] := by rw [hscale, hscaled, hpeak]
  refine (h.broadcast .div w scale m n hw hdims).bind fun levels hlevels ↦
    (h.uniform q levels).bind fun codes hcodes ↦ ?_
  exact h.broadcast .mul codes scale m n (hcodes.trans hlevels) hdims

theorem ternaryAuto (q : Ternary) (hreduces : T.Reduces m n) (hw : T.dims w = [m, n]) :
    Gives T.dims (T.ternaryAuto q w) [m, n] := by
  refine (h.map .abs w).bind fun magnitude hmagnitude ↦ ?_
  have hmagnitude := hmagnitude.trans hw
  refine (hreduces .max magnitude hmagnitude).bind fun peak hpeak ↦ (h.affine peak _ 0).bind fun cut hcut ↦ ?_
  have hcut := hcut.trans hpeak
  refine (h.broadcastCompare .gt w cut m n hw hcut).bind fun above habove ↦ (h.toNumbers above).bind fun up hup ↦ ?_
  refine (h.map .neg cut).bind fun low hlow ↦ ?_
  refine (h.broadcastCompare .lt w low m n hw (hlow.trans hcut)).bind fun below hbelow ↦ ?_
  refine (h.toNumbers below).bind fun down hdown ↦ ?_
  have hup := hup.trans habove
  refine (h.combine .sub up down (hup.trans (hdown.trans hbelow).symm)).bind fun codes hcodes ↦ ?_
  have hcodes := hcodes.trans hup
  refine (h.map .abs codes).bind fun kept hkept ↦ ?_
  have hkept := hkept.trans hcodes
  refine (hreduces .sum kept hkept).bind fun count hcount ↦ ?_
  refine (h.combine .mul magnitude kept (hmagnitude.trans hkept.symm)).bind fun share hshare ↦ ?_
  refine (hreduces .sum share (hshare.trans hmagnitude)).bind fun total htotal ↦ ?_
  refine (h.clamp count _ _).bind fun atLeast hatLeast ↦ ?_
  refine (h.combine .div total atLeast (by rw [htotal, hatLeast, hcount])).bind fun mean hmean ↦ ?_
  refine (h.compare .gt count 0).bind fun mask hmask ↦ (h.map .one count).bind fun ones hones ↦ ?_
  refine (h.select mask mean ones (by rw [hmask, hmean, htotal, hcount]) (by rw [hmean, hones, htotal, hcount])).bind
    fun scale hscale ↦ ?_
  exact h.broadcast .mul codes scale m n hcodes (by rw [hscale, hmean, htotal])

theorem binaryAuto (hreduces : T.Reduces m n) (hw : T.dims w = [m, n]) : Gives T.dims (T.binaryAuto w) [m, n] := by
  refine (h.map .abs w).bind fun magnitude hmagnitude ↦ ?_
  refine (hreduces .mean magnitude (hmagnitude.trans hw)).bind fun mean hmean ↦ ?_
  refine (h.positiveOrOne mean).bind fun scale hscale ↦ (h.bipolar w).bind fun codes hcodes ↦ ?_
  exact h.broadcast .mul codes scale m n (hcodes.trans hw) (hscale.trans hmean)

/-- Parameters keep their dimensions under a quantizer. -/
theorem parameters (q : Quantizer) (hreduces : T.Reduces m n) (hw : T.dims w = [m, n]) :
    Gives T.dims (T.parameters q w) [m, n] := by
  unfold TensorLibrary.parameters
  rw [← hw]
  split
  · refine (h.affine w _ 0).bind fun scaled hscaled ↦ (h.uniform _ scaled).bind fun codes hcodes ↦ ?_
    rw [← hscaled, ← hcodes]
    exact h.affine codes _ 0
  · refine (h.ternary w _).bind fun codes hcodes ↦ ?_
    rw [← hcodes]
    exact h.affine codes _ 0
  · refine (h.bipolar w).bind fun codes hcodes ↦ ?_
    rw [← hcodes]
    exact h.affine codes _ 0
  all_goals rw [hw]
  · exact h.uniformAuto _ hreduces hw
  · exact h.ternaryAuto _ hreduces hw
  · exact h.binaryAuto hreduces hw

end Lawful

end TensorLibrary

end FixedNet

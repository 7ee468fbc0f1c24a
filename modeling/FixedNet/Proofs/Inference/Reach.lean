import FixedNet.Proofs.Inference.Work
import FixedNet.Proofs.Network.Passes

namespace FixedNet

namespace Step

variable {n : ℕ} {α : Type}

def store (s : Step n) (values : Vector α n) (a : α) : Vector α n := values.set s.index a

theorem get_store_self (s : Step n) (values : Vector α n) (a : α) : (s.store values a).get s.index = a :=
  get_set_self values s.index a

theorem get_store_ne {s : Step n} {i : Fin n} (h : i ≠ s.index) (values : Vector α n) (a : α) :
    (s.store values a).get i = values.get i := get_set_ne values h a

theorem map_store {β : Type} (f : α → β) (s : Step n) (values : Vector α n) (a : α) :
    (s.store values a).map f = s.store (values.map f) (f a) := Vector.map_set

end Step

namespace Plan

variable (p : Plan) {row : List Float}

def stepOutcome (row : List Float) (values : p.Values) (s : Step p.size) : Except Fault (List Fixed) :=
  (p.runStep row values s (.start s.name false)).1

def outcome (row : List Float) (steps : List (Step p.size)) (values : p.Values) : Except Fault p.Values :=
  (p.evaluateFrom row steps 0 values none).1

def noValues : p.Values := Vector.replicate p.size []

/-- The step is the next one once the steps before it have left these values. -/
def Reaches (row : List Float) (s : Step p.size) (values : p.Values) : Prop :=
  ∃ before after, p.steps = before ++ s :: after ∧ p.outcome row before p.noValues = .ok values

variable {p}

theorem stepOutcome_eq (row : List Float) (values : p.Values) (s : Step p.size) : p.stepOutcome row values s =
    ((s.inputs.mapM fun i ↦ decodeInput i.2 (values.get i.1)).mapError fun e ↦ ⟨s.name, .quantizing, .numeric e⟩) >>=
      fun inputs ↦ (s.kernel.run p.inputFeatures row inputs ⟨s.name, .quantizing, none⟩).1 := by
  rw [stepOutcome, runStep, Work.mapM_calculate]
  simp only [Work.fst_enter_bind, Work.fst_calculate_bind]
  rfl

theorem evaluateFrom_none (row : List Float) (steps : List (Step p.size)) (position : ℕ) (values : p.Values) :
    p.evaluateFrom row steps position values none = (p.outcome row steps values, none) := by
  suffices h : ∀ start, p.evaluateFrom row steps position values none =
      ((p.evaluateFrom row steps start values none).1, none) from h 0
  induction steps generalizing position values with
  | nil => exact fun _ ↦ rfl
  | cons s steps ih =>
    intro start
    simp only [evaluateFrom, Option.isSome_none]
    obtain ⟨outcome, progress⟩ := p.runStep row values s (.start s.name false)
    cases outcome with
    | error fault => rfl
    | ok xs => exact ih (position + 1) _ (start + 1)

theorem outcome_cons (s : Step p.size) (steps : List (Step p.size)) (values : p.Values) :
    p.outcome row (s :: steps) values =
      p.stepOutcome row values s >>= fun xs ↦ p.outcome row steps (s.store values xs) := by
  simp only [outcome, evaluateFrom, stepOutcome, Option.isSome_none]
  obtain ⟨outcome, progress⟩ := p.runStep row values s (.start s.name false)
  cases outcome with
  | error fault => rfl
  | ok xs =>
    have hnext := evaluateFrom_none row steps 1 (s.store values xs)
    exact (congrArg Prod.fst hnext :)

theorem outcome_cons_of_ok {s : Step p.size} {steps : List (Step p.size)} {values : p.Values} {xs : List Fixed}
    (h : p.stepOutcome row values s = .ok xs) :
    p.outcome row (s :: steps) values = p.outcome row steps (s.store values xs) := by
  rw [outcome_cons, h]
  rfl

theorem outcome_cons_of_error {s : Step p.size} {steps : List (Step p.size)} {values : p.Values} {f : Fault}
    (h : p.stepOutcome row values s = .error f) : p.outcome row (s :: steps) values = .error f := by
  rw [outcome_cons, h]
  rfl

theorem outcome_cons_eq_ok_iff {s : Step p.size} {steps : List (Step p.size)} {values values' : p.Values} :
    p.outcome row (s :: steps) values = .ok values' ↔
      ∃ xs, p.stepOutcome row values s = .ok xs ∧ p.outcome row steps (s.store values xs) = .ok values' := by
  rw [outcome_cons, bind_eq_ok_iff]

theorem outcome_append_of_ok {before after : List (Step p.size)} {values values' : p.Values}
    (h : p.outcome row before values = .ok values') :
    p.outcome row (before ++ after) values = p.outcome row after values' := by
  induction before generalizing values with
  | nil =>
    cases h
    rfl
  | cons s before ih =>
    obtain ⟨xs, hs, h⟩ := outcome_cons_eq_ok_iff.mp h
    rw [List.cons_append, outcome_cons_of_ok hs]
    exact ih h

theorem layer_of_stepOutcome {s : Step p.size} {values : p.Values} {f : Fault}
    (h : p.stepOutcome row values s = .error f) : f.layer = s.name := by
  obtain ⟨entered, outcome, hfollows, happly⟩ := runStep_follows row values s s.name .pending
  obtain rfl : outcome = .error f := (congrArg Prod.fst (happly none)).symm.trans h
  exact hfollows.2.1

theorem exists_of_outcome_error {steps : List (Step p.size)} {values : p.Values} {f : Fault}
    (h : p.outcome row steps values = .error f) : ∃ before s after values', steps = before ++ s :: after ∧
      p.outcome row before values = .ok values' ∧ p.stepOutcome row values' s = .error f := by
  induction steps generalizing values with
  | nil => cases h
  | cons s steps ih =>
    cases hs : p.stepOutcome row values s with
    | error e =>
      rw [outcome_cons_of_error hs] at h
      cases h
      exact ⟨[], s, steps, values, rfl, rfl, hs⟩
    | ok xs =>
      rw [outcome_cons_of_ok hs] at h
      obtain ⟨before, s', after, values', rfl, hb, hstep⟩ := ih h
      exact ⟨s :: before, s', after, values', rfl, (outcome_cons_of_ok hs).trans hb, hstep⟩

theorem predictRow_eq (row : List Float) : p.predictRow row =
    (p.outcome row p.steps p.noValues).map fun values ↦ (values.get p.output).map Fixed.toFloat := rfl

theorem predictRow_eq_ok_iff {out : List Float} : p.predictRow row = .ok out ↔
    ∃ values, p.outcome row p.steps p.noValues = .ok values ∧ (values.get p.output).map Fixed.toFloat = out :=
  map_eq_ok_iff

theorem predictRow_eq_error_iff {f : Fault} :
    p.predictRow row = .error f ↔ p.outcome row p.steps p.noValues = .error f := by
  rw [predictRow_eq]
  cases p.outcome row p.steps p.noValues <;> simp [Except.map]

theorem reaches_of_predictRow_error {f : Fault} (h : p.predictRow row = .error f) : ∃ s values,
    p.Reaches row s values ∧ p.stepOutcome row values s = .error f := by
  obtain ⟨before, s, after, values, hsteps, hb, hstep⟩ := exists_of_outcome_error (predictRow_eq_error_iff.mp h)
  exact ⟨s, values, ⟨before, after, hsteps, hb⟩, hstep⟩

theorem Reaches.mem {s : Step p.size} {values : p.Values} (h : p.Reaches row s values) : s ∈ p.steps := by
  obtain ⟨before, after, hsteps, -⟩ := h
  rw [hsteps]
  simp

/-- What holds without values and is kept by every step that succeeds holds along the run. -/
theorem outcome_induction {motive : List (Step p.size) → p.Values → Prop} (nil : motive [] p.noValues)
    (step : ∀ before s values xs, motive before values → p.outcome row before p.noValues = .ok values →
      (∃ after, p.steps = before ++ s :: after) → p.stepOutcome row values s = .ok xs →
      motive (before ++ [s]) (s.store values xs))
    {before after : List (Step p.size)} {values : p.Values} (hsteps : p.steps = before ++ after)
    (h : p.outcome row before p.noValues = .ok values) : motive before values := by
  induction before using List.reverseRecOn generalizing after values with
  | nil =>
    cases h
    exact nil
  | append_singleton before s ih =>
    have hsteps' : p.steps = before ++ s :: after := by rw [hsteps, List.append_assoc, List.singleton_append]
    cases hb : p.outcome row before p.noValues with
    | error f =>
      obtain ⟨before', s', after', values', hbefore, hb', hstep⟩ := exists_of_outcome_error hb
      have herror : p.outcome row (before ++ [s]) p.noValues = .error f := by
        rw [hbefore, List.append_assoc, outcome_append_of_ok hb', List.cons_append, outcome_cons_of_error hstep]
      rw [herror] at h
      cases h
    | ok values' =>
      rw [outcome_append_of_ok hb] at h
      obtain ⟨xs, hs, h⟩ := outcome_cons_eq_ok_iff.mp h
      cases h
      exact step before s values' xs (ih hsteps' hb) hb ⟨after, hsteps'⟩ hs

end Plan

end FixedNet

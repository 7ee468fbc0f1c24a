import FixedNet.Proofs.Inference.Reach

namespace FixedNet

namespace Stage

def working : List Stage := [quantizing, accumulating, narrowing]

/-- The history of a layer that has come to its end. -/
def completed : List Stage := pending :: working ++ [done]

/-- The history of a layer that failed in the last of the stages it had entered. -/
def broken (entered : List Stage) : List Stage := pending :: entered ++ [failed]

/-- The stages entered in turn until this one. -/
structure EnteredUntil (stage : Stage) (entered : List Stage) : Prop where
  in_turn : entered <+: working
  last_eq : entered.getLast? = some stage

end Stage

open Stage (completed broken EnteredUntil)

namespace Plan

variable {p : Plan}

/-- The histories of steps in turn: a layer after the other is done, until one fails or none is left. -/
inductive Histories : List (Step p.size) → List (List Stage) → Except Fault p.Values → Prop
  | nil (values : p.Values) : Histories [] [] (.ok values)
  | done {s : Step p.size} {steps : List (Step p.size)} {histories : List (List Stage)}
      {outcome : Except Fault p.Values} (tail : Histories steps histories outcome) :
      Histories (s :: steps) (completed :: histories) outcome
  | fault {s : Step p.size} {steps : List (Step p.size)} {entered : List Stage} {stage : Stage}
      (head : EnteredUntil stage entered) (reason : FaultReason) :
      Histories (s :: steps) (broken entered :: steps.map fun _ ↦ [.pending]) (.error ⟨s.name, stage, reason⟩)

theorem exists_recorded (row : List Float) (values : p.Values) (s : Step p.size) : ∃ entered stage,
    p.runStep row values s (.start s.name true) =
      (p.stepOutcome row values s, ⟨s.name, stage, some (.pending :: entered)⟩) ∧
    match p.stepOutcome row values s with
    | .ok _ => entered = Stage.working
    | .error fault => fault.layer = s.name ∧ EnteredUntil fault.stage entered := by
  obtain ⟨entered, outcome, hfollows, happly⟩ := runStep_follows row values s s.name .pending
  obtain rfl : p.stepOutcome row values s = outcome := congrArg Prod.fst (happly none)
  refine ⟨.quantizing :: entered, _, (happly _).trans (congrArg _ (Progress.through_eq _ _)), ?_⟩
  cases houtcome : p.stepOutcome row values s with
  | ok xs =>
    rw [houtcome] at hfollows
    exact congrArg (.quantizing :: ·) hfollows
  | error fault =>
    rw [houtcome] at hfollows
    obtain ⟨hturn, hlayer, hstage⟩ := hfollows
    refine ⟨hlayer, (List.cons_prefix_cons).2 ⟨rfl, hturn⟩, ?_⟩
    rw [List.getLast?_cons, hstage]

theorem exists_histories (row : List Float) (steps : List (Step p.size)) (values : p.Values)
    (front : List (List Stage)) : ∃ histories,
      p.evaluateFrom row steps front.length values (some (front ++ steps.map fun _ ↦ [.pending])) =
        (p.outcome row steps values, some (front ++ histories)) ∧
      Histories steps histories (p.outcome row steps values) := by
  induction steps generalizing values front with
  | nil => exact ⟨[], rfl, .nil values⟩
  | cons s steps ih =>
    obtain ⟨entered, stage, hrun, hentered⟩ := exists_recorded row values s
    have hset (history : List Stage) (later : List (List Stage)) :
        (front ++ [.pending] :: later).set front.length history = front ++ history :: later := by simp
    rw [outcome_cons]
    simp only [evaluateFrom, Option.isSome_some, List.map_cons, hrun]
    cases houtcome : p.stepOutcome row values s with
    | error fault =>
      rw [houtcome] at hentered
      obtain ⟨hlayer, hentered⟩ := hentered
      have hfault : fault = ⟨s.name, fault.stage, fault.reason⟩ := by rw [← hlayer]
      refine ⟨broken entered :: steps.map fun _ ↦ [.pending], congrArg (Except.error fault, some ·) (hset _ _), ?_⟩
      rw [hfault]
      exact .fault hentered fault.reason
    | ok xs =>
      rw [houtcome] at hentered
      subst hentered
      obtain ⟨histories, heq, htail⟩ := ih (s.store values xs) (front ++ [completed])
      refine ⟨completed :: histories, ?_, .done htail⟩
      rw [List.length_append, List.append_assoc, List.append_assoc] at heq
      exact (congrArg (p.evaluateFrom row steps (front.length + 1) (s.store values xs) <| some ·) (hset _ _)).trans heq

/-- The outcome of steps of which this many are done, all or those before the fault. -/
def EndsAt (steps : List (Step p.size)) (histories : List (List Stage)) (k : ℕ) : Except Fault p.Values → Prop
  | .ok _ => k = steps.length
  | .error fault => ∃ s entered, steps[k]? = some s ∧ histories[k]? = some (broken entered) ∧
      fault.layer = s.name ∧ EnteredUntil fault.stage entered

namespace Histories

variable {steps : List (Step p.size)} {histories : List (List Stage)} {outcome : Except Fault p.Values}

theorem length_eq (h : Histories steps histories outcome) : histories.length = steps.length := by
  induction h with
  | nil => rfl
  | done _ ih => rw [List.length_cons, List.length_cons, ih]
  | fault => rw [List.length_cons, List.length_cons, List.length_map]

theorem exists_position (h : Histories steps histories outcome) : ∃ k,
    histories.take k = (steps.take k).map (fun _ ↦ completed) ∧
      histories.drop (k + 1) = (steps.drop (k + 1)).map (fun _ ↦ [.pending]) ∧ EndsAt steps histories k outcome := by
  induction h with
  | nil => exact ⟨0, rfl, rfl, rfl⟩
  | @done s steps histories outcome _ ih =>
    obtain ⟨k, hbefore, hafter, hend⟩ := ih
    refine ⟨k + 1, congrArg (completed :: ·) hbefore, hafter, ?_⟩
    cases outcome with
    | ok => exact congrArg (· + 1) hend
    | error => exact hend
  | fault head reason => exact ⟨0, rfl, rfl, _, _, rfl, rfl, rfl, head⟩

end Histories

/-- Every layer has a history, in the order of evaluation. Those before some position are of layers that are
done. Without a fault that is all; with a fault the next layer is the one it names, which failed in the stage it
names, and all others are pending. -/
theorem trace_follows_stages (p : Plan) (row : List Float) :
    (p.trace row).map Prod.fst = p.steps.map Step.name ∧ ∃ k,
      (p.trace row).take k = (p.steps.take k).map (fun s ↦ (s.name, completed)) ∧
      (p.trace row).drop (k + 1) = (p.steps.drop (k + 1)).map (fun s ↦ (s.name, [.pending])) ∧
      match p.predictRow row with
      | .ok _ => k = p.steps.length
      | .error fault => ∃ s entered, p.steps[k]? = some s ∧ fault.layer = s.name ∧
          entered ≠ [] ∧ entered <+: [.quantizing, .accumulating, .narrowing] ∧ entered.getLast? = some fault.stage ∧
          (p.trace row)[k]? = some (s.name, .pending :: entered ++ [.failed]) := by
  obtain ⟨histories, hrun, h⟩ := exists_histories row p.steps p.noValues []
  have htrace : p.trace row = (p.steps.map Step.name).zip histories := by
    rw [trace, evaluate, ← List.map_const']
    exact congrArg (fun run : Except Fault p.Values × Option (List (List Stage)) ↦
      (p.steps.map Step.name).zip (run.2.getD (p.steps.map fun _ ↦ [.pending]))) hrun
  have hlength : (p.steps.map Step.name).length = histories.length := by rw [List.length_map, h.length_eq]
  have hzip (steps : List (Step p.size)) (history : List Stage) :
      (steps.map Step.name).zip (steps.map fun _ ↦ history) = steps.map fun s ↦ (s.name, history) := List.zip_map'
  obtain ⟨k, hbefore, hafter, hend⟩ := h.exists_position
  rw [htrace, predictRow_eq]
  refine ⟨List.map_fst_zip hlength.le, k, ?_, ?_, ?_⟩
  · rw [List.zip, List.take_zipWith, ← List.map_take, hbefore]
    exact hzip _ completed
  · rw [List.zip, List.drop_zipWith, ← List.map_drop, hafter]
    exact hzip _ [.pending]
  · cases hrun : p.outcome row p.steps p.noValues with
    | ok values =>
      rw [hrun] at hend
      exact hend
    | error fault =>
      rw [hrun] at hend
      obtain ⟨s, entered, hs, hhistory, hlayer, hentered⟩ := hend
      have hne : entered ≠ [] := by
        rintro rfl
        cases hentered.last_eq
      refine ⟨s, entered, hs, hlayer, hne, hentered.in_turn, hentered.last_eq, ?_⟩
      exact List.getElem?_zip_eq_some.2 ⟨by rw [List.getElem?_map, hs]; rfl, hhistory⟩

end Plan

end FixedNet

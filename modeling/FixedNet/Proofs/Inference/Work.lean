import FixedNet.Inference.Run
import FixedNet.Proofs.Outcome

namespace FixedNet

namespace Progress

def through (p : Progress) (stages : List Stage) : Progress := stages.foldl enter p

theorem through_eq (p : Progress) (stages : List Stage) : p.through stages =
    ⟨p.layer, stages.getLast?.getD p.stage, p.history.map fun history ↦ history ++ stages⟩ := by
  induction stages generalizing p with
  | nil => simp [through]
  | cons stage stages ih =>
    change (p.enter stage).through stages = _
    rw [ih]
    simp [enter, Function.comp_def, List.getLast?_cons]

theorem through_append (p : Progress) (stages later : List Stage) :
    p.through (stages ++ later) = (p.through stages).through later := List.foldl_append

end Progress

namespace Work

variable {α β γ : Type} {w : Work α} {f : α → Work β} {p p' : Progress}

theorem bind_of_ok {a : α} (h : w p = (.ok a, p')) : (w >>= f) p = f a p' := by
  change ExceptT.bindCont f (w p).1 (w p).2 = _
  rw [h]
  rfl

theorem bind_of_error {e : Fault} (h : w p = (.error e, p')) : (w >>= f) p = (.error e, p') := by
  change ExceptT.bindCont f (w p).1 (w p).2 = _
  rw [h]
  rfl

theorem calculate_apply (x : Except NumericError α) (p : Progress) :
    calculate x p = (x.mapError fun e ↦ p.fault (.numeric e), p) := by
  cases x <;> rfl

theorem mapM_calculate (f : α → Except NumericError β) (xs : List α) :
    (xs.mapM fun x ↦ calculate (f x)) = calculate (xs.mapM f) := by
  induction xs with
  | nil => rfl
  | cons x xs ih =>
    rw [List.mapM_cons, List.mapM_cons, ih]
    cases f x with
    | error e => rfl
    | ok y => cases xs.mapM f <;> rfl

@[simp]
theorem fst_pure (a : α) (p : Progress) : ((pure a : Work α) p).1 = .ok a := rfl

@[simp]
theorem fst_enter_bind (stage : Stage) (f : Unit → Work β) (p : Progress) :
    ((enter stage >>= f) p).1 = (f () (p.enter stage)).1 := rfl

@[simp]
theorem fst_calculate (x : Except NumericError α) (p : Progress) :
    (calculate x p).1 = x.mapError fun e ↦ p.fault (.numeric e) := by
  rw [calculate_apply]

@[simp]
theorem fst_calculate_bind (x : Except NumericError α) (f : α → Work β) (p : Progress) :
    ((calculate x >>= f) p).1 = (x.mapError fun e ↦ p.fault (.numeric e)) >>= fun a ↦ (f a p).1 := by
  cases x <;> rfl

/-- How work that is to enter the stages in turn goes on from a stage: all of them are entered, or there is a
fault in the one it has come to. -/
def Follows (layer : String) (stage : Stage) (stages entered : List Stage) : Except Fault α → Prop
  | .ok _ => entered = stages
  | .error fault => entered <+: stages ∧ fault.layer = layer ∧ fault.stage = entered.getLast?.getD stage

/-- The stages that work enters in turn. What it enters and how it ends does not depend on a history being kept. -/
def Enters (w : Work α) (stages : List Stage) : Prop :=
  ∀ layer stage, ∃ entered outcome, Follows layer stage stages entered outcome ∧
    ∀ history, w ⟨layer, stage, history⟩ = (outcome, Progress.through ⟨layer, stage, history⟩ entered)

theorem enters_pure (a : α) : Enters (pure a) [] := fun _ _ ↦ ⟨[], .ok a, rfl, fun _ ↦ rfl⟩

theorem enters_enter (stage : Stage) : Enters (enter stage) [stage] := fun _ _ ↦ ⟨[stage], .ok (), rfl, fun _ ↦ rfl⟩

theorem enters_attempt (x : Except FaultReason α) : Enters (attempt x) [] := by
  intro layer stage
  cases x with
  | ok a => exact ⟨[], .ok a, rfl, fun _ ↦ rfl⟩
  | error reason => exact ⟨[], .error ⟨layer, stage, reason⟩, ⟨List.prefix_rfl, rfl, rfl⟩, fun _ ↦ rfl⟩

theorem enters_calculate (x : Except NumericError α) : Enters (calculate x) [] := enters_attempt _

theorem Enters.bind {stages later : List Stage} (hw : w.Enters stages) (hf : ∀ a, (f a).Enters later) :
    Enters (w >>= f) (stages ++ later) := by
  intro layer stage
  obtain ⟨entered, outcome, hfollows, happly⟩ := hw layer stage
  cases outcome with
  | error fault =>
    obtain ⟨hturn, hfault⟩ := hfollows
    exact ⟨entered, .error fault, ⟨hturn.trans (List.prefix_append _ _), hfault⟩,
      fun history ↦ bind_of_error (happly history)⟩
  | ok a =>
    obtain rfl : entered = stages := hfollows
    obtain ⟨entered', outcome', hfollows', happly'⟩ := hf a layer (entered.getLast?.getD stage)
    refine ⟨entered ++ entered', outcome', ?_, fun history ↦ ?_⟩
    · cases outcome' with
      | ok b => exact congrArg (entered ++ ·) hfollows'
      | error fault =>
        obtain ⟨hturn, hlayer, hstage⟩ := hfollows'
        refine ⟨(List.prefix_append_right_inj entered).mpr hturn, hlayer, ?_⟩
        rw [hstage, List.getLast?_append, Option.getD_or]
    · rw [bind_of_ok (happly history), Progress.through_append, Progress.through_eq _ entered]
      exact happly' _

end Work

/-- The input layer takes a row of the right length, number by number. -/
theorem Kernel.fst_run_input (result : Format) (inputFeatures : ℕ) (row : List Float) (inputs : List (List Fixed))
    (p : Progress) : ((input result).run inputFeatures row inputs p).1 =
      if row.length = inputFeatures then (row.mapM (Fixed.ofFloat result)).mapError fun e ↦ p.fault (.numeric e)
      else .error (p.fault (.inputWidth inputFeatures row.length)) := by
  simp only [run, quantizeRow]
  split
  · rw [Work.fst_calculate_bind]
    cases row.mapM (Fixed.ofFloat result) <;> rfl
  · rfl

theorem Kernel.enters_run (k : Kernel) (inputFeatures : ℕ) (row : List Float) (inputs : List (List Fixed)) :
    (k.run inputFeatures row inputs).Enters [.accumulating, .narrowing] := by
  have hcalculate {α : Type} (x : Except NumericError α) := Work.enters_calculate x
  have haccumulating := Work.enters_enter .accumulating
  have hnarrowing := Work.enters_enter .narrowing
  cases k with
  | input result =>
    have hquantize : (quantizeRow inputFeatures row result).Enters [] := by
      unfold quantizeRow
      split
      · exact hcalculate _
      · exact Work.enters_attempt _
    exact hquantize.bind fun _ ↦ haccumulating.bind fun _ ↦ hnarrowing.bind fun _ ↦ Work.enters_pure _
  | dense | batchNorm =>
    exact haccumulating.bind fun _ ↦ (hcalculate _).bind fun _ ↦ hnarrowing.bind fun _ ↦ hcalculate _
  | activation | concatenate => exact haccumulating.bind fun _ ↦ hnarrowing.bind fun _ ↦ Work.enters_pure _
  | softmax =>
    exact (hcalculate _).bind fun _ ↦ haccumulating.bind fun _ ↦ (hcalculate _).bind fun _ ↦ hnarrowing.bind fun _ ↦
      hcalculate _
  | add =>
    exact haccumulating.bind fun _ ↦ (hcalculate _).bind fun _ ↦ hnarrowing.bind fun _ ↦ Work.enters_pure _

/-- A step quantizes before anything can fail. -/
theorem Plan.runStep_follows {p : Plan} (row : List Float) (values : p.Values) (s : Step p.size) (layer : String)
    (stage : Stage) : ∃ entered outcome, Work.Follows layer .quantizing [.accumulating, .narrowing] entered outcome ∧
      ∀ history, p.runStep row values s ⟨layer, stage, history⟩ =
        (outcome, Progress.through ⟨layer, stage, history⟩ (.quantizing :: entered)) := by
  have hinputs : Work.Enters (s.inputs.mapM fun i ↦ Work.calculate (decodeInput i.2 values[i.1])) [] := by
    rw [Work.mapM_calculate]
    exact Work.enters_calculate _
  have hwork := hinputs.bind fun inputs ↦ s.kernel.enters_run p.inputFeatures row inputs
  obtain ⟨entered, outcome, hfollows, happly⟩ := hwork layer .quantizing
  exact ⟨entered, outcome, hfollows, fun history ↦ happly (history.map (· ++ [Stage.quantizing]))⟩

end FixedNet

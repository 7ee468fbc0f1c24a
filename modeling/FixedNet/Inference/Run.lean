import FixedNet.Inference.Plan

namespace FixedNet

inductive Stage
  | pending
  | quantizing
  | accumulating
  | narrowing
  | done
  | failed
  deriving DecidableEq

def Stage.name : Stage → String
  | pending => "pending"
  | quantizing => "quantizing"
  | accumulating => "accumulating"
  | narrowing => "narrowing"
  | done => "done"
  | failed => "failed"

inductive FaultReason
  | inputWidth (expected got : Nat)
  | numeric (error : NumericError)
  /-- A reason reported as text. -/
  | stated (text : String)
  deriving DecidableEq

def FaultReason.message : FaultReason → String
  | inputWidth expected got => "expected " ++ toString expected ++ " input features, got " ++ toString got
  | numeric error => error.message
  | stated text => text

structure Fault where
  layer : String
  stage : Stage
  reason : FaultReason
  deriving DecidableEq

def Fault.message (f : Fault) : String :=
  "Numeric fault in layer '" ++ f.layer ++ "' while " ++ f.stage.name ++ ": " ++ f.reason.message

/-- How far the work on a layer has come: the stage it is in and, if they are recorded, the stages so far. -/
structure Progress where
  layer : String
  stage : Stage
  history : Option (List Stage)

namespace Progress

def start (layer : String) (record : Bool) : Progress := ⟨layer, .pending, if record then some [.pending] else none⟩

def enter (p : Progress) (stage : Stage) : Progress :=
  { p with stage, history := p.history.map fun stages ↦ stages ++ [stage] }

def fault (p : Progress) (reason : FaultReason) : Fault := ⟨p.layer, p.stage, reason⟩

end Progress

/-- Work on a layer, which enters one stage after the other. A fault is one of the stage it has come to. -/
abbrev Work (α : Type) := ExceptT Fault (StateM Progress) α

namespace Work

def enter (stage : Stage) : Work Unit := modify fun p ↦ p.enter stage

def attempt {α : Type} : Except FaultReason α → Work α
  | .ok a => return a
  | .error reason => do throw ((← get).fault reason)

def calculate {α : Type} (x : Except NumericError α) : Work α := attempt (x.mapError .numeric)

end Work

/-- Adds the products one by one; each product and each sum is narrowed into the accumulator. -/
def accumulateProducts (accum : Format) : Fixed → List (Fixed × Fixed) → Except NumericError Fixed
  | acc, [] => .ok acc
  | acc, (x, w) :: terms => do
    let product ← x.mul w
    let sum ← acc.add (product.narrow accum)
    accumulateProducts accum (sum.narrow accum) terms

def accumulateTerms (accum : Format) : Fixed → List Fixed → Except NumericError Fixed
  | acc, [] => .ok acc
  | acc, x :: xs => do
    let sum ← acc.add x
    accumulateTerms accum (sum.narrow accum) xs

/-- Adds one input to the sums of an addition, entry by entry. -/
def accumulateEntries (accum : Format) : List Fixed → List Fixed → Except NumericError (List Fixed)
  | acc :: accs, x :: xs => do
    let sum ← acc.add x
    let rest ← accumulateEntries accum accs xs
    return sum.narrow accum :: rest
  | accs, _ => .ok accs

namespace Neuron

def sum (u : Neuron) (accum : Format) (inputs : List Fixed) : Except NumericError Fixed := do
  let acc ← accumulateProducts accum (Fixed.zero.narrow accum) (inputs.zip u.weights)
  match u.scale with
  | some s => acc.mul s
  | none => return acc

end Neuron

def Shape.apply (s : Shape) (x : Fixed) : Fixed :=
  match s with
  | linear => x
  | relu => if x.isNegative then .zero else x
  | sign bipolar => if !x.isNegative then .one else if bipolar then .minusOne else .zero
  | cut threshold =>
    let v := x.toFloat
    if threshold < v then .one else if v < -threshold then .minusOne else .zero

def Fixed.larger (x y : Fixed) : Fixed := if y.compareValue x = .gt then y else x

/-- The exponentials of the differences to the largest input. -/
def ExpTable.lookupAll (exp : ExpTable) : List Fixed → Except NumericError (List Fixed)
  | [] => .ok []
  | x :: xs =>
    let largest := xs.foldl Fixed.larger x
    (x :: xs).mapM fun y ↦ do
      let d ← y.sub largest
      return exp.lookup d

namespace Kernel

def sumWith (x y : Fixed) (f : Format) : Except NumericError Fixed := do
  let sum ← x.add y
  return sum.narrow f

def productWith (x y : Fixed) (f : Format) : Except NumericError Fixed := do
  let product ← x.mul y
  return product.narrow f

def quantizeRow (inputFeatures : Nat) (row : List Float) (f : Format) : Work (List Fixed) :=
  if row.length = inputFeatures then Work.calculate (row.mapM (Fixed.ofFloat f))
  else Work.attempt (.error (.inputWidth inputFeatures row.length))

def run (k : Kernel) (inputFeatures : Nat) (row : List Float) (inputs : List (List Fixed)) : Work (List Fixed) := do
  let first := inputs.head?.getD []
  match k with
  | input result => do
    let projected ← quantizeRow inputFeatures row result
    Work.enter .accumulating
    Work.enter .narrowing
    return projected
  | dense units accum result => do
    Work.enter .accumulating
    let sums ← Work.calculate (units.mapM fun u ↦ u.sum accum first)
    Work.enter .narrowing
    Work.calculate ((sums.zip units).mapM fun p ↦ sumWith p.1 p.2.bias result)
  | batchNorm channels accum result => do
    Work.enter .accumulating
    let scaled ← Work.calculate ((first.zip channels).mapM fun p ↦ productWith p.1 p.2.1 accum)
    Work.enter .narrowing
    Work.calculate ((scaled.zip channels).mapM fun p ↦ sumWith p.1 p.2.2 result)
  | activation shape result => do
    Work.enter .accumulating
    let activated := first.map shape.apply
    Work.enter .narrowing
    return activated.map (Fixed.narrow result)
  | softmax exp inv accum result => do
    -- the exponentials still belong to the stage of the inputs
    let exps ← Work.calculate (exp.lookupAll first)
    Work.enter .accumulating
    let sum ← Work.calculate (accumulateTerms accum (Fixed.zero.narrow accum) exps)
    let inverse := inv.lookup sum
    Work.enter .narrowing
    Work.calculate (exps.mapM fun e ↦ productWith e inverse result)
  | add accum result => do
    Work.enter .accumulating
    let zeros := List.replicate first.length (Fixed.zero.narrow accum)
    let sums ← Work.calculate (inputs.foldlM (accumulateEntries accum) zeros)
    Work.enter .narrowing
    return sums.map (Fixed.narrow result)
  | concatenate result => do
    Work.enter .accumulating
    let joined := inputs.flatten
    Work.enter .narrowing
    return joined.map (Fixed.narrow result)

end Kernel

def decodeInput (decode : Bool) (xs : List Fixed) : Except NumericError (List Fixed) :=
  if decode then xs.mapM Fixed.decodeBipolar else .ok xs

namespace Plan

variable (p : Plan)

/-- The values of the layers; those that have not run have none. -/
abbrev Values := Vector (List Fixed) p.size

def runStep (row : List Float) (values : p.Values) (s : Step p.size) : Work (List Fixed) := do
  Work.enter .quantizing
  let inputs ← s.inputs.mapM fun i ↦ Work.calculate (decodeInput i.2 values[i.1])
  s.kernel.run p.inputFeatures row inputs

/-- Runs steps in turn, the first of them at the given position, up to a fault. Where histories are kept, a step
that has run leaves its own at its position. -/
def evaluateFrom (row : List Float) : List (Step p.size) → Nat → p.Values → Option (List (List Stage)) →
    Except Fault p.Values × Option (List (List Stage))
  | [], _, values, histories => (.ok values, histories)
  | s :: steps, position, values, histories =>
    let (outcome, progress) := p.runStep row values s (.start s.name histories.isSome)
    let progress := progress.enter (if outcome.isOk then .done else .failed)
    let histories := match histories, progress.history with
      | some histories, some history => some (histories.set position history)
      | histories, _ => histories
    match outcome with
    | .error fault => (.error fault, histories)
    | .ok xs => evaluateFrom row steps (position + 1) (values.set s.index xs) histories

def evaluate (row : List Float) (histories : Option (List (List Stage))) :
    Except Fault (List Float) × Option (List (List Stage)) :=
  let (outcome, histories) := p.evaluateFrom row p.steps 0 (Vector.replicate p.size []) histories
  (outcome.map fun values ↦ values[p.output].map Fixed.toFloat, histories)

def predictRow (row : List Float) : Except Fault (List Float) := (p.evaluate row none).1

/-- The stages every layer passes through, along the order. -/
def trace (row : List Float) : List (String × List Stage) :=
  let pending := List.replicate p.steps.length [Stage.pending]
  (p.steps.map Step.name).zip ((p.evaluate row (some pending)).2.getD pending)

end Plan

end FixedNet

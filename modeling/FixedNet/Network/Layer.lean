import FixedNet.Network.Description
import FixedNet.Network.Slot
import FixedNet.Quantizer.OfCall

namespace FixedNet

inductive ActivationFunction
  | linear
  | relu
  | quantized (q : Quantizer)

inductive Op
  | input
  | dense (inFeatures : Nat) (weights bias : List Float) (kernelQuantizer biasQuantizer : Option Quantizer)
  | batchNorm (scale shift : List Float)
  | activation (function : ActivationFunction)
  | softmax
  | add
  | concatenate

namespace Op

def className : Op → String
  | input => "InputLayer"
  | dense .. => "Dense"
  | batchNorm .. => "BatchNormalization"
  | activation _ => "Activation"
  | softmax => "Softmax"
  | add => "Add"
  | concatenate => "Concatenate"

def hasKernelScale : Op → Bool
  | dense _ _ _ (some q) _ => !q.alpha.isUnit
  | _ => false

/-- How the outputs are to be read by the layers that follow. -/
def encoding : Op → Encoding
  | activation (.quantized q) => q.encoding
  | _ => .direct

def requiredSlots (op : Op) : List Slot :=
  match op with
  | input | activation _ | concatenate => [.result]
  | dense .. => [.weight, .bias, .accum, .result] ++ if op.hasKernelScale then [.scale] else []
  | batchNorm .. => [.scale, .bias, .accum, .result]
  | softmax => [.expTable, .invTable, .accum, .result]
  | add => [.accum, .result]

def unresolvedSlot (op : Op) (formats : SlotMap Format) : Option Slot :=
  op.requiredSlots.find? fun p ↦ (formats.get p).isNone

end Op

/-- What is wrong with a layer by itself. -/
inductive LayerProblem
  | inputReads
  | noFeatures
  | inputCount (count : Nat)
  | noUnits
  | weightCount (count units inFeatures : Nat)
  | biasCount (count units : Nat)
  | parameterCount (parameter : String) (count features : Nat)
  | variance (denominator : Float)
  | addCount
  | addWidths (widths : List Nat)
  | concatenateCount
  | quantizer (error : QuantizerError)

def LayerProblem.message : LayerProblem → String
  | inputReads => "input layer cannot have inputs"
  | noFeatures => "input layer needs at least one feature"
  | inputCount count => "expects one input, got " ++ toString count
  | noUnits => "dense layer needs at least one unit"
  | weightCount count units inFeatures =>
    "weights hold " ++ toString count ++ " values, expected " ++ toString units ++ " x " ++ toString inFeatures
  | biasCount count units => "bias holds " ++ toString count ++ " values, expected " ++ toString units
  | parameterCount parameter count features =>
    parameter ++ " holds " ++ toString count ++ " values, expected " ++ toString features
  | variance denominator => "variance + epsilon must be positive, got " ++ Binary64.text denominator
  | addCount => "add needs at least two inputs"
  | addWidths widths => "add inputs differ in width: " ++ Text.bracketed (widths.map toString)
  | concatenateCount => "concatenate needs at least two inputs"
  | quantizer error => error.message

namespace LayerKind

def singleInput : List Nat → Except LayerProblem Nat
  | [width] => .ok width
  | widths => .error (.inputCount widths.length)

def readQuantizer (text : String) : Except LayerProblem Quantizer := (Quantizer.read text).mapError .quantizer

def readOptional : Option String → Except LayerProblem (Option Quantizer)
  | none => .ok none
  | some text => (readQuantizer text).map some

def foldChannel (gamma beta mean variance epsilon : Float) : Except LayerProblem (Float × Float) :=
  let denominator := variance + epsilon
  if denominator ≤ 0 then .error (.variance denominator)
  else
    let scale := gamma / denominator.sqrt
    .ok (scale, beta - mean * scale)

def foldChannels (epsilon : Float) : List Float → List Float → List Float → List Float →
    Except LayerProblem (List (Float × Float))
  | g :: gamma, b :: beta, m :: mean, v :: variance => do
    let channel ← foldChannel g b m v epsilon
    let channels ← foldChannels epsilon gamma beta mean variance
    return channel :: channels
  | _, _, _, _ => .ok []

def checkCount (parameter : String) (values : List Float) (features : Nat) : Except LayerProblem Unit :=
  if values.length = features then .ok () else .error (.parameterCount parameter values.length features)

def readActivation (function : String) : Except LayerProblem Op :=
  match function with
  | "linear" => .ok (.activation .linear)
  | "relu" => .ok (.activation .relu)
  | "softmax" => .ok .softmax
  | text => do
    let q ← readQuantizer text
    q.checkActivation.mapError .quantizer
    return .activation (.quantized q)

/-- The operation of a layer whose inputs have the given widths, and its own width. -/
def build (kind : LayerKind) (widths : List Nat) : Except LayerProblem (Op × Nat) :=
  match kind with
  | input features =>
    if !widths.isEmpty then .error .inputReads
    else if features = 0 then .error .noFeatures
    else .ok (.input, features)
  | dense units weights bias kernelQuantizer biasQuantizer => do
    let inFeatures ← singleInput widths
    if units = 0 then throw .noUnits
    if weights.length ≠ word64 (units * inFeatures) then throw (.weightCount weights.length units inFeatures)
    let bias := bias.getD (List.replicate units 0)
    if bias.length ≠ units then throw (.biasCount bias.length units)
    let kernelQuantizer ← readOptional kernelQuantizer
    let biasQuantizer ← readOptional biasQuantizer
    return (.dense inFeatures weights bias kernelQuantizer biasQuantizer, units)
  | batchNorm gamma beta mean variance epsilon => do
    let features ← singleInput widths
    checkCount "gamma" gamma features
    checkCount "beta" beta features
    checkCount "mean" mean features
    checkCount "variance" variance features
    let channels ← foldChannels epsilon gamma beta mean variance
    return (.batchNorm (channels.map Prod.fst) (channels.map Prod.snd), features)
  | activation function => do
    let features ← singleInput widths
    let op ← readActivation function
    return (op, features)
  | softmax => do return (.softmax, ← singleInput widths)
  | add =>
    match widths with
    | width :: _ :: _ =>
      if widths.all (· = width) then .ok (.add, width) else .error (.addWidths widths)
    | _ => .error .addCount
  | concatenate =>
    if widths.length < 2 then .error .concatenateCount
    else .ok (.concatenate, widths.foldl (fun sum width ↦ word64 (sum + width)) 0)

end LayerKind

end FixedNet

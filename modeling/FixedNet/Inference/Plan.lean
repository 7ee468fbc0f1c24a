import FixedNet.Inference.Table
import FixedNet.Network.Graph
import FixedNet.Quantizer.Tensor

namespace FixedNet

inductive CompileError
  | unresolved (layer : String) (slot : Slot)
  | nonFinite (layer parameter : String)
  | tableSize (layer : String) (size : Nat)
  | quantizer (layer : String) (error : QuantizerError)
  | numeric (error : NumericError)

def CompileError.message : CompileError → String
  | .unresolved layer slot => "Layer '" ++ layer ++ "' has no resolved " ++ slot.name ++ " type"
  | .nonFinite layer parameter => "Layer '" ++ layer ++ "' has a non-finite " ++ parameter ++ " value"
  | .tableSize layer size => "Layer '" ++ layer ++ "' has a lookup table of size " ++ toString size
  | .quantizer layer error => "Layer '" ++ layer ++ "': " ++ error.message
  | .numeric error => "Fixed-point error: " ++ error.message

/-- What an activation does to a value before it is narrowed. -/
inductive Shape
  | linear
  | relu
  /-- One for what is not negative, else zero or, if bipolar, minus one. -/
  | sign (bipolar : Bool)
  /-- The sign of what exceeds the cut in magnitude. -/
  | cut (threshold : Float)

def Quantizer.shape : Quantizer → Shape
  | uniform q => if q.isBinary then .sign false else if q.keepNegative then .linear else .relu
  | ternary q => .cut q.cut
  | binary q => .sign !q.xnor

def ActivationFunction.shape : ActivationFunction → Shape
  | linear => .linear
  | relu => .relu
  | quantized q => q.shape

/-- One unit of a dense layer. Weights are values, their codes decoded. -/
structure Neuron where
  weights : List Fixed
  scale : Option Fixed
  bias : Fixed

inductive Kernel
  | input (result : Format)
  | dense (units : List Neuron) (accum result : Format)
  /-- A scale and a shift per channel. -/
  | batchNorm (channels : List (Fixed × Fixed)) (accum result : Format)
  | activation (shape : Shape) (result : Format)
  | softmax (exp : ExpTable) (inv : InvTable) (accum result : Format)
  | add (accum result : Format)
  | concatenate (result : Format)

/-- One layer of a plan: whose outputs it reads, which of them are codes to decode, and where its own go. -/
structure Step (n : Nat) where
  name : String
  index : Fin n
  inputs : List (Fin n × Bool)
  kernel : Kernel

structure Plan where
  size : Nat
  steps : List (Step size)
  output : Fin size
  inputFeatures : Nat
  outputFeatures : Nat

namespace Layer

variable {n : Nat} (layer : Layer n)

def formatAt (formats : SlotMap Format) (p : Slot) : Except CompileError Format :=
  match formats.get p with
  | some f => .ok f
  | none => .error (.unresolved layer.name p)

def ensureFinite (parameter : String) (values : List Float) : Except CompileError Unit :=
  if values.all Float.isFinite then .ok () else .error (.nonFinite layer.name parameter)

def snap (parameter : String) (values : List Float) (f : Format) : Except CompileError (List Fixed) := do
  layer.ensureFinite parameter values
  (values.mapM (Fixed.ofFloat f)).mapError .numeric

def projectParameters (q : Quantizer) (values : List Float) (channels : Nat) : Except CompileError CodedTensor :=
  (q.projectTensor values channels).mapError (.quantizer layer.name)

/-- The weights as values on their grid, and the scales of the units if they are not all one by design. -/
def compileWeights (formats : SlotMap Format) (weights : List Float) (kernelQuantizer : Option Quantizer) :
    Except CompileError (List Fixed × List (Option Fixed)) := do
  let f ← layer.formatAt formats .weight
  layer.ensureFinite "weights" weights
  let unscaled := List.replicate layer.features none
  match kernelQuantizer with
  | none => return (← layer.snap "weights" weights f, unscaled)
  | some q =>
    let tensor ← layer.projectParameters q weights layer.features
    let codes ← layer.snap "weights" tensor.codes f
    let values ← match q.encoding with
      | .xnor => (codes.mapM Fixed.decodeBipolar).mapError .numeric
      | .direct => pure codes
    if layer.op.hasKernelScale then do
      let scales ← layer.snap "scale" tensor.scales (← layer.formatAt formats .scale)
      return (values, scales.map some)
    else return (values, unscaled)

def compileBias (formats : SlotMap Format) (bias : List Float) (biasQuantizer : Option Quantizer) :
    Except CompileError (List Fixed) := do
  let f ← layer.formatAt formats .bias
  layer.ensureFinite "bias" bias
  match biasQuantizer with
  | none => layer.snap "bias" bias f
  | some q =>
    let tensor ← layer.projectParameters q bias layer.features
    layer.snap "bias" tensor.values f

def assembleUnits : List (List Fixed) → List (Option Fixed) → List Fixed → List Neuron
  | w :: ws, s :: ss, b :: bs => ⟨w, s, b⟩ :: assembleUnits ws ss bs
  | _, _, _ => []

def compileDense (formats : SlotMap Format) (inFeatures : Nat) (weights bias : List Float)
    (kernelQuantizer biasQuantizer : Option Quantizer) : Except CompileError Kernel := do
  let (weights, scales) ← layer.compileWeights formats weights kernelQuantizer
  let bias ← layer.compileBias formats bias biasQuantizer
  let accum ← layer.formatAt formats .accum
  let result ← layer.formatAt formats .result
  return .dense (assembleUnits (Quantizer.stretches inFeatures layer.features weights) scales bias) accum result

end Layer

namespace Graph

variable (g : Graph) (t : Typing g)

/-- The integer bits of the inputs of a softmax layer, as they arrive. -/
def softmaxInputBits (i : Fin g.size) : Except CompileError Int :=
  match (g.layer i).inputs with
  | [] => .ok 0
  | j :: _ =>
    match (g.layer j).op.encoding with
    | .xnor => .ok 2
    | .direct => ((g.layer j).formatAt (t.get j).formats .result).map Format.integer

def compileSoftmax (i : Fin g.size) : Except CompileError Kernel := do
  let layer := g.layer i
  let size := (t.get i).tableSize
  if size = 0 then throw (.tableSize layer.name size)
  let bits ← g.softmaxInputBits t i
  let formats := (t.get i).formats
  let exp ← (ExpTable.make size bits (← layer.formatAt formats .expTable)).mapError .numeric
  let limit := Binary64.ofInt layer.features
  let inv ← (InvTable.make size limit (← layer.formatAt formats .invTable)).mapError .numeric
  let accum ← layer.formatAt formats .accum
  let result ← layer.formatAt formats .result
  return .softmax exp inv accum result

def compileKernel (i : Fin g.size) : Except CompileError Kernel := do
  let layer := g.layer i
  let formats := (t.get i).formats
  match layer.op with
  | .input => return .input (← layer.formatAt formats .result)
  | .dense inFeatures weights bias kernelQuantizer biasQuantizer =>
    layer.compileDense formats inFeatures weights bias kernelQuantizer biasQuantizer
  | .batchNorm scale shift =>
    let scale ← layer.snap "scale" scale (← layer.formatAt formats .scale)
    let shift ← layer.snap "shift" shift (← layer.formatAt formats .bias)
    return .batchNorm (scale.zip shift) (← layer.formatAt formats .accum) (← layer.formatAt formats .result)
  | .activation function => return .activation function.shape (← layer.formatAt formats .result)
  | .softmax => g.compileSoftmax t i
  | .add => return .add (← layer.formatAt formats .accum) (← layer.formatAt formats .result)
  | .concatenate => return .concatenate (← layer.formatAt formats .result)

def compileStep (i : Fin g.size) : Except CompileError (Step g.size) := do
  let kernel ← g.compileKernel t i
  let inputs := (g.layer i).inputs.map fun j ↦ (j, decide ((g.layer j).op.encoding = .xnor))
  return ⟨(g.layer i).name, i, inputs, kernel⟩

/-- Compiles the layers along the order, once all required slots have formats. -/
def compile : Except CompileError Plan := do
  if let some (i, p) := g.firstUnresolved t then throw (.unresolved (g.layer i).name p)
  let steps ← g.order.mapM (g.compileStep t)
  return ⟨g.size, steps, g.output, g.inputFeatures, g.outputFeatures⟩

end Graph

end FixedNet

import FixedNet.Network.Layer
import FixedNet.Simulation.Projection

namespace FixedNet

/-- What a layer does in the simulation. Its parameters are tensors, with a row for each unit. -/
inductive SimulatedOp (T : TensorLibrary)
  | input
  | dense (weight bias : T.Tensor)
  | batchNorm (gamma beta mean variance : T.Tensor) (epsilon : Float)
  | activation (function : ActivationFunction)
  | softmax
  | add
  | concatenate

/-- Inputs are positions of earlier layers. -/
structure SimulatedLayer (T : TensorLibrary) where
  name : String
  op : SimulatedOp T
  inputs : List Nat
  features : Nat

/-- A network simulated in binary64. Layers must be listed after the layers they read; the last one is the output. -/
structure Simulation (T : TensorLibrary) where
  layers : List (SimulatedLayer T)
  output : Nat
  inputFeatures : Nat

inductive SimulationProblem
  | duplicateName
  | undefinedInput (name : String)
  | inputCount
  | secondInput
  | weightCount (expected got : Nat)
  | biasCount (expected got : Nat)
  | parameterCount (expected got : Nat)
  | inputWidths

inductive SimulationError (T : TensorLibrary)
  | layer (name : String) (problem : SimulationProblem)
  | noInput
  | noLayers
  | rowWidth (expected got : Nat)
  | quantizer (layer : String) (error : QuantizerError)
  | tensor (refusal : T.Refusal)

def SimulationProblem.message : SimulationProblem → String
  | duplicateName => "duplicate name"
  | undefinedInput name => "input '" ++ name ++ "' is not defined before it"
  | inputCount => "wrong number of inputs"
  | secondInput => "second input layer"
  | weightCount expected got => "expected " ++ toString expected ++ " weights, got " ++ toString got
  | biasCount expected got => "expected " ++ toString expected ++ " biases, got " ++ toString got
  | parameterCount expected got => "expected " ++ toString expected ++ " batch-norm parameters, got " ++ toString got
  | inputWidths => "inputs differ in width"

variable {T : TensorLibrary}

def SimulationError.message : SimulationError T → String
  | layer name problem => "Invalid network: layer '" ++ name ++ "': " ++ problem.message
  | noInput => "Invalid network: no input layer"
  | noLayers => "Invalid network: no layers"
  | rowWidth expected got =>
    "Invalid network: expected " ++ toString expected ++ " input features, got " ++ toString got
  | quantizer name error => "Layer '" ++ name ++ "': " ++ error.message
  | tensor refusal => "Tensor error: " ++ T.message refusal

namespace SimulatedOp

def isInput : SimulatedOp T → Bool
  | input => true
  | _ => false

/-- The outputs for a batch of data and the outputs of the layers read. -/
def forward (op : SimulatedOp T) (data : T.Tensor) (inputs : List T.Tensor) : Except T.Refusal T.Tensor := do
  -- only the input layer reads no other layer
  let first := inputs.headD data
  match op with
  | input => return data
  | dense weight bias => T.linear weight bias first
  | batchNorm gamma beta mean variance epsilon =>
    let deviation ← T.map .sqrt (← T.affine variance 1 epsilon)
    let centred ← T.broadcast .sub first mean
    let normalized ← T.broadcast .div centred deviation
    T.broadcast .add (← T.broadcast .mul normalized gamma) beta
  | activation .linear => return first
  | activation .relu => T.map .relu first
  | activation (.quantized q) => T.activation q first
  | softmax => T.softmax first
  | add => inputs.tail.foldlM (T.combine .add) first
  | concatenate => T.join inputs

end SimulatedOp

namespace LayerDescription

variable (layer : LayerDescription)

def reject {α : Type} (problem : SimulationProblem) : Except (SimulationError T) α := .error (.layer layer.name problem)

def readSimulated (text : String) : Except (SimulationError T) Quantizer :=
  (Quantizer.read text).mapError (.quantizer layer.name)

def simulateParameters (quantizer : Option String) (values : List Float) (rows columns : Nat) :
    Except (SimulationError T) T.Tensor := do
  let w ← (T.fromList values [rows, columns]).mapError .tensor
  match quantizer with
  | none => return w
  | some text =>
    let q ← layer.readSimulated text
    (T.parameters q w).mapError .tensor

def simulateDense (width units : Nat) (weights : List Float) (bias : Option (List Float))
    (kernelQuantizer biasQuantizer : Option String) : Except (SimulationError T) (SimulatedOp T) := do
  let count := word64 (units * width)
  if weights.length ≠ count then layer.reject (.weightCount count weights.length)
  let weight ← layer.simulateParameters kernelQuantizer weights units width
  let bias := bias.getD (List.replicate units 0)
  if bias.length ≠ units then layer.reject (.biasCount units bias.length)
  let bias ← layer.simulateParameters biasQuantizer bias units 1
  return .dense weight (← (T.flatten bias).mapError .tensor)

def simulateRow (width : Nat) (values : List Float) : Except (SimulationError T) T.Tensor :=
  if values.length = width then (T.fromList values [1, width]).mapError .tensor
  else layer.reject (.parameterCount width values.length)

def simulateActivation (function : String) : Except (SimulationError T) (SimulatedOp T) :=
  match String.ofList (Text.trim function.toList) with
  | "linear" => .ok (.activation .linear)
  | "relu" => .ok (.activation .relu)
  | "softmax" => .ok .softmax
  | text => do
    let q ← layer.readSimulated text
    q.checkActivation.mapError (.quantizer layer.name)
    return .activation (.quantized q)

/-- What the layer does with inputs of the given widths, and its own width. -/
def simulateOp (hasInput : Bool) (widths : List Nat) : Except (SimulationError T) (SimulatedOp T × Nat) :=
  let width := widths.headD 0
  match layer.kind with
  | .input features => if hasInput then layer.reject .secondInput else .ok (.input, features)
  | .dense units weights bias kernelQuantizer biasQuantizer => do
    return (← layer.simulateDense width units weights bias kernelQuantizer biasQuantizer, units)
  | .batchNorm gamma beta mean variance epsilon => do
    let gamma ← layer.simulateRow width gamma
    let beta ← layer.simulateRow width beta
    let mean ← layer.simulateRow width mean
    let variance ← layer.simulateRow width variance
    return (.batchNorm gamma beta mean variance epsilon, width)
  | .activation function => do return (← layer.simulateActivation function, width)
  | .softmax => .ok (.softmax, width)
  | .add => if widths.all (· = width) then .ok (.add, width) else layer.reject .inputWidths
  | .concatenate => .ok (.concatenate, widths.foldl (fun sum width ↦ word64 (sum + width)) 0)

def simulate (before : List (SimulatedLayer T)) : Except (SimulationError T) (SimulatedLayer T) := do
  if before.any fun l ↦ l.name == layer.name then layer.reject .duplicateName
  let inputs ← layer.inputs.mapM fun name ↦
    match before.findIdx? fun l ↦ l.name == name with
    | some i => .ok i
    | none => layer.reject (.undefinedInput name)
  if inputs.isEmpty ≠ layer.kind.isInput then layer.reject .inputCount
  let widths := inputs.map fun i ↦ (before[i]?.map SimulatedLayer.features).getD 0
  let (op, features) ← layer.simulateOp (before.any fun l ↦ l.op.isInput) widths
  return ⟨layer.name, op, inputs, features⟩

end LayerDescription

namespace Simulation

def ofDescription (T : TensorLibrary) (d : Description) : Except (SimulationError T) (Simulation T) := do
  let layers ← d.foldlM (fun before layer ↦ do return before ++ [← layer.simulate before]) []
  match layers.find? fun l ↦ l.op.isInput with
  | none => throw .noInput
  | some input =>
    if layers.isEmpty then throw .noLayers
    return ⟨layers, layers.length - 1, input.features⟩

variable (s : Simulation T)

def forward (data : T.Tensor) : Except T.Refusal T.Tensor := do
  let values ← s.layers.foldlM (fun values l ↦ do
    let inputs ← l.inputs.mapM fun i ↦
      match values[i]? with
      | some value => .ok value
      | none => .error (T.stated ("'" ++ l.name ++ "' ran before its input"))
    return values.push (← l.op.forward data inputs)) #[]
  match values[s.output]? with
  | some out => return out
  | none => throw (T.stated "model produced no output")

def checkRow (row : List Float) : Except (SimulationError T) Unit :=
  if row.length = s.inputFeatures then .ok () else .error (.rowWidth s.inputFeatures row.length)

def predict (rows : List (List Float)) : Except (SimulationError T) (List (List Float)) := do
  if rows.isEmpty then return []
  rows.forM s.checkRow
  (do T.toRows (← s.forward (← T.fromList rows.flatten [rows.length, s.inputFeatures]))).mapError .tensor

end Simulation

end FixedNet

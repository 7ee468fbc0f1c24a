import FixedNet.Network.Layer
import FixedNet.Network.Order

namespace FixedNet

/-- A layer of a network with `n` layers. -/
structure Layer (n : Nat) where
  name : String
  op : Op
  inputs : List (Fin n)
  features : Nat

/-- Layers stand as they were listed; `order` runs through all of them, each after the layers it reads. -/
structure Graph where
  size : Nat
  layers : Vector (Layer size) size
  order : List (Fin size)
  input : Fin size
  output : Fin size

inductive GraphError
  | noLayers
  | duplicateName (name : String)
  | unknownInput (layer input : String)
  | inputLayers (count : Nat)
  | cycle
  | outputLayers (names : List String)
  | layer (name : String) (problem : LayerProblem)

def GraphError.message : GraphError → String
  | .noLayers => "Invalid graph: network has no layers"
  | .duplicateName name => "Invalid graph: duplicate layer name '" ++ name ++ "'"
  | .unknownInput reader name => "Invalid graph: layer '" ++ reader ++ "' reads unknown layer '" ++ name ++ "'"
  | .inputLayers count => "Invalid graph: expected exactly one input layer, found " ++ toString count
  | .cycle => "Invalid graph: network contains a cycle"
  | .outputLayers names =>
    "Invalid graph: expected a single output layer, found " ++ Text.bracketed (names.map Text.quoted)
  | .layer name (.quantizer error) => "Layer '" ++ name ++ "': " ++ error.message
  | .layer name problem => "Invalid graph: layer '" ++ name ++ "': " ++ problem.message

def firstRepeated : List String → Option String :=
  go []
where
  go (seen : List String) : List String → Option String
    | [] => none
    | s :: ss => if seen.contains s then some s else go (s :: seen) ss

namespace Description

variable (d : Description)

def indexOf? (name : String) : Option (Fin d.length) := (List.finRange d.length).find? fun i ↦ d[i].name == name

def unknownInput? : Option (String × String) :=
  d.findSome? fun layer ↦ (layer.inputs.find? fun x ↦ (d.indexOf? x).isNone).map fun x ↦ (layer.name, x)

def edges (i : Fin d.length) : List (Fin d.length) := d[i].inputs.filterMap d.indexOf?

def inputLayers : List (Fin d.length) := (List.finRange d.length).filter fun i ↦ d[i].kind.isInput

def sinks : List (Fin d.length) :=
  let counts := consumerCounts d.edges
  (List.finRange d.length).filter fun i ↦ counts.get i = 0

/-- Builds the layers along the order; widths of inputs are read off the layers built before. -/
def buildAlong : List (Fin d.length) → Vector (Layer d.length) d.length →
    Except GraphError (Vector (Layer d.length) d.length)
  | [], built => .ok built
  | i :: order, built => do
    let inputs := d.edges i
    let widths := inputs.map fun j ↦ built[j].features
    let (op, features) ← (d[i].kind.build widths).mapError (.layer d[i].name)
    buildAlong order (built.set i ⟨d[i].name, op, inputs, features⟩)

def only {α : Type} : List α → Option α
  | [a] => some a
  | _ => none

end Description

/-- Checks a description: names, wiring, the input layer, cycles, the output layer, then every layer. -/
def Graph.ofDescription (d : Description) : Except GraphError Graph := do
  if d.isEmpty then throw .noLayers
  if let some name := firstRepeated (d.map LayerDescription.name) then throw (.duplicateName name)
  if let some (layer, input) := d.unknownInput? then throw (.unknownInput layer input)
  let some input := Description.only d.inputLayers | throw (.inputLayers d.inputLayers.length)
  let some order := topologicalOrder d.edges | throw .cycle
  let some output := Description.only d.sinks | throw (.outputLayers (d.sinks.map fun i ↦ d[i].name))
  let layers ← d.buildAlong order (Vector.replicate d.length ⟨"", .input, [], 0⟩)
  return { size := d.length, layers, order, input, output }

abbrev Typing (g : Graph) := Vector LayerFormats g.size

namespace Graph

variable (g : Graph)

def layer (i : Fin g.size) : Layer g.size := g.layers.get i

def inputFeatures : Nat := (g.layer g.input).features

def outputFeatures : Nat := (g.layer g.output).features

def untyped : Typing g := Vector.replicate g.size {}

def find? (name : String) : Option (Fin g.size) := (List.finRange g.size).find? fun i ↦ (g.layer i).name == name

def firstUnresolved (t : Typing g) : Option (Fin g.size × Slot) :=
  g.order.findSome? fun i ↦ ((g.layer i).op.unresolvedSlot (t.get i).formats).map fun p ↦ (i, p)

end Graph

end FixedNet

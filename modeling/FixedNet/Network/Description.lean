import FixedNet.Power

namespace FixedNet

open scoped FixedNet.Power

/-- Counts are held in 64 bits. A product or a sum that is larger keeps its low bits. -/
def word64 (n : Nat) : Nat := n % 2 ^ (64 : Nat)

inductive LayerKind
  | input (features : Nat)
  /-- Weights are listed unit by unit. -/
  | dense (units : Nat) (weights : List Float) (bias : Option (List Float))
    (kernelQuantizer biasQuantizer : Option String)
  | batchNorm (gamma beta mean variance : List Float) (epsilon : Float)
  | activation (function : String)
  | softmax
  | add
  | concatenate

structure LayerDescription where
  name : String
  inputs : List String
  kind : LayerKind

abbrev Description := List LayerDescription

def LayerKind.isInput : LayerKind → Bool
  | input _ => true
  | _ => false

namespace Description

/-- Appends a layer. One that names no inputs reads the layer before it. -/
def push (d : Description) (layer : LayerDescription) : Description :=
  if layer.kind.isInput || !layer.inputs.isEmpty then d ++ [layer]
  else d ++ [{ layer with inputs := d.getLast?.toList.map LayerDescription.name }]

def ofLayers (layers : List LayerDescription) : Description := layers.foldl push []

end Description

end FixedNet

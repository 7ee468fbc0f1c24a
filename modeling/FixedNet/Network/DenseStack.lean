import FixedNet.Network.Description

namespace FixedNet

structure DenseParameters (inFeatures units : Nat) where
  weights : Vector Float (word64 (units * inFeatures))
  bias : Vector Float units

/-- Parameters for a layer of a given name and shape. -/
abbrev Initializer := String → (inFeatures units : Nat) → DenseParameters inFeatures units

/-- The activation follows every hidden layer. -/
structure DenseStack where
  inputs : Nat
  hidden : List Nat
  outputs : Nat
  kernelQuantizer : Option String := none
  biasQuantizer : Option String := none
  activation : String := "relu"
  softmax : Bool := false

namespace DenseStack

variable (s : DenseStack) (init : Initializer)

def denseLayer (name : String) (inFeatures units : Nat) : LayerDescription :=
  let p := init name inFeatures units
  ⟨name, [], .dense units p.weights.toList (some p.bias.toList) s.kernelQuantizer s.biasQuantizer⟩

def hiddenLayers : Nat → Nat → List Nat → List LayerDescription
  | _, _, [] => []
  | i, width, units :: rest =>
    s.denseLayer init ("dense" ++ toString i) width units :: ⟨"act" ++ toString i, [], .activation s.activation⟩ ::
      hiddenLayers (i + 1) units rest

def layers : List LayerDescription :=
  ⟨"input", [], .input s.inputs⟩ :: s.hiddenLayers init 1 s.inputs s.hidden ++
    s.denseLayer init "output" (s.hidden.getLast?.getD s.inputs) s.outputs ::
      if s.softmax then [⟨"softmax", [], .softmax⟩] else []

/-- The network, if every dense layer reads something: initial weights are spread by the number of inputs. -/
def describe : Option Description :=
  if (s.inputs :: s.hidden).all (0 < ·) then some (.ofLayers (s.layers init)) else none

end DenseStack

end FixedNet

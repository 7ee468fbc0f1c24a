import FixedNet.Quantizer.Error

namespace FixedNet

def Uniform.make (bits : Nat) (integer : Int) : Except QuantizerError Uniform :=
  if h : 0 < bits ∧ bits ≤ 64 then .ok { bits, integer, bits_bounds := h } else .error (.parameter (.bits bits))

def Uniform.makeRelu (bits : Nat) (integer : Int) : Except QuantizerError Uniform :=
  (make bits integer).map fun q ↦ { q with keepNegative := false }

namespace Call

variable (call : Call)

def checkArguments (known : List String) (positions : Nat) : Except QuantizerError Unit :=
  let unknown := call.unknownKeywords known
  if !unknown.isEmpty then .error (.unsupported (.keywords call unknown))
  else if positions < call.args.length then .error (.unsupported (.positional call))
  else .ok ()

def isSet (keyword : String) (position : Nat) : Bool :=
  match call.get? keyword position with
  | none => false
  | some (.number n) => n != 0
  | some (.text t) => t != "None"

def rejectFlag (keyword : String) (position : Nat) : Except QuantizerError Unit :=
  if call.isSet keyword position then .error (.unsupported (.flag call keyword)) else .ok ()

def badValue {α : Type} (keyword : String) : Except QuantizerError α := .error (.parameter (.value call keyword))

/-- An integer of at most 31 bits and a sign, written as a number. -/
def intArg (keyword : String) (position : Nat) (default : Int) : Except QuantizerError Int :=
  match call.get? keyword position with
  | none => .ok default
  | some (.number n) =>
    if n.isFinite && Binary64.trunc n == n && n.abs ≤ 2147483647 then .ok (Binary64.toInt n) else call.badValue keyword
  | some (.text _) => call.badValue keyword

def countArg (keyword : String) (position default : Nat) : Except QuantizerError Nat := do
  let n ← call.intArg keyword position default
  if 0 ≤ n then return n.toNat else call.badValue keyword

def flagArg (keyword : String) (position : Nat) (default : Bool) : Except QuantizerError Bool :=
  match call.get? keyword position with
  | none => .ok default
  | some (.number n) => .ok (n != 0)
  | some (.text _) => call.badValue keyword

def alphaArg (position : Nat) : Except QuantizerError Alpha :=
  match call.get? "alpha" position with
  | none => .ok .unit
  | some (.number a) => if a.isFinite && 0 < a then .ok (.fixed a) else call.badValue "alpha"
  | some (.text "auto") => .ok .auto
  | some (.text "None") => .ok .unit
  | some (.text t) => .error (.unsupported (.alpha call t))

def thresholdArg (position : Nat) : Except QuantizerError (Option Float) :=
  match call.get? "threshold" position with
  | none | some (.text "None") => .ok none
  | some (.number t) => if t.isFinite && 0 ≤ t then .ok (some t) else call.badValue "threshold"
  | some (.text _) => call.badValue "threshold"

end Call

namespace Quantizer

def ofCall (call : Call) : Except QuantizerError Quantizer :=
  match call.name with
  | "quantized_bits" => do
    call.checkArguments ["bits", "integer", "symmetric", "keep_negative", "alpha", "use_stochastic_rounding"] 6
    call.rejectFlag "use_stochastic_rounding" 5
    let bits ← call.countArg "bits" 0 8
    let integer ← call.intArg "integer" 1 0
    let q ← Uniform.make bits integer
    let symmetric ← call.flagArg "symmetric" 2 false
    let keepNegative ← call.flagArg "keep_negative" 3 true
    let alpha ← call.alphaArg 4
    return uniform { q with symmetric, keepNegative, alpha }
  | "quantized_relu" => do
    call.checkArguments ["bits", "integer", "use_sigmoid", "negative_slope", "use_stochastic_rounding"] 5
    call.rejectFlag "use_sigmoid" 2
    call.rejectFlag "negative_slope" 3
    call.rejectFlag "use_stochastic_rounding" 4
    let bits ← call.countArg "bits" 0 8
    let integer ← call.intArg "integer" 1 0
    return uniform (← Uniform.makeRelu bits integer)
  | "ternary" => do
    call.checkArguments ["alpha", "threshold", "use_stochastic_rounding"] 3
    call.rejectFlag "use_stochastic_rounding" 2
    let threshold ← call.thresholdArg 1
    let alpha ← call.alphaArg 0
    return ternary { alpha, threshold }
  | "binary" => do
    call.checkArguments ["use_01", "alpha", "use_stochastic_rounding"] 3
    call.rejectFlag "use_01" 0
    call.rejectFlag "use_stochastic_rounding" 2
    let alpha ← call.alphaArg 1
    return binary { xnor := true, alpha }
  | "binary_tanh" => do
    call.checkArguments [] 0
    return binary { xnor := false }
  | name => .error (.unsupported (.name name))

def read (text : String) : Except QuantizerError Quantizer :=
  match Call.read? text with
  | some call => ofCall call
  | none => .error (.malformed text)

/-- An activation has nowhere to put a scale. -/
def checkActivation (q : Quantizer) : Except QuantizerError Unit :=
  if q.alpha.isUnit then .ok () else .error (.unsupported (.activation q))

end Quantizer

end FixedNet

import FixedNet.Numeric.Fixed

namespace FixedNet

inductive Alpha
  | fixed (value : Float)
  /-- One scale per channel, taken from the channel itself. -/
  | auto
  deriving DecidableEq

namespace Alpha

def unit : Alpha := fixed 1

def isUnit : Alpha → Bool
  | fixed a => a == 1
  | auto => false

def text : Alpha → String
  | fixed a => Binary64.text a
  | auto => "'auto'"

end Alpha

/-- What a code stands for: itself, or `0` and `1` for `-1` and `1`. -/
inductive Encoding
  | direct
  | xnor
  deriving DecidableEq

/-- What a quantizer does as an activation, apart from the narrowing. -/
inductive ActivationKind
  | linear
  | relu
  | threshold
  deriving DecidableEq

/-- `bits` bits, `integer` of them above the binary point; the sign bit counts among `bits` only. -/
structure Uniform where
  bits : Nat
  integer : Int
  symmetric : Bool := false
  keepNegative : Bool := true
  alpha : Alpha := .unit
  bits_bounds : 0 < bits ∧ bits ≤ 64
  deriving DecidableEq

structure Ternary where
  alpha : Alpha
  threshold : Option Float
  deriving DecidableEq

/-- Two levels, coded `0` and `1` with `xnor` and `-1` and `1` without. -/
structure Binary where
  xnor : Bool
  alpha : Alpha := .unit
  deriving DecidableEq

inductive Quantizer
  | uniform (q : Uniform)
  | ternary (q : Ternary)
  | binary (q : Binary)
  deriving DecidableEq

def selectSign (xnor : Bool) (x : Float) : Float :=
  if 0 ≤ x then 1 else if xnor then 0 else -1

def selectCut (cut x : Float) : Float :=
  if cut < x then 1 else if x < -cut then -1 else 0

def clampFloat (low high x : Float) : Float :=
  let x := if x < low then low else x
  if high < x then high else x

namespace Uniform

variable (q : Uniform)

def isBinary : Bool := q.bits = 1

def magnitude : Nat := if q.keepNegative then q.bits - 1 else q.bits

def step : Float := Binary64.pow2 (word32 (q.integer - q.magnitude))

def levels : Float := Binary64.pow2 q.magnitude

def lowest : Float :=
  if q.keepNegative then -q.levels + (if q.symmetric then 1 else 0) else 0

def highest : Float := q.levels - 1

/-- The nearest level of the grid, ties to the even one, within the range. -/
def project (x : Float) : Float :=
  if q.isBinary then selectSign true x
  else clampFloat q.lowest q.highest (Binary64.roundWith .nearestEven (x / q.step)) * q.step

def format : Except NumericError Format :=
  if q.isBinary then .ok .bit
  else Format.make q.bits (word32 (q.integer + if q.keepNegative then 1 else 0)) q.keepNegative

end Uniform

namespace Ternary

def cut (q : Ternary) : Float := q.threshold.getD 0.33

def project (q : Ternary) (x : Float) : Float :=
  match q.alpha with
  | .fixed a => selectCut (q.cut * a) x
  | .auto => selectCut q.cut x

end Ternary

namespace Binary

def project (q : Binary) (x : Float) : Float := selectSign q.xnor x

def format (q : Binary) : Format := if q.xnor then .bit else .trit

end Binary

namespace Quantizer

def alpha : Quantizer → Alpha
  | uniform q => q.alpha
  | ternary q => q.alpha
  | binary q => q.alpha

def encoding : Quantizer → Encoding
  | uniform q => if q.isBinary then .xnor else .direct
  | ternary _ => .direct
  | binary q => if q.xnor then .xnor else .direct

def activation : Quantizer → ActivationKind
  | uniform q => if q.isBinary then .threshold else if q.keepNegative then .linear else .relu
  | ternary _ => .threshold
  | binary _ => .threshold

def format : Quantizer → Except NumericError Format
  | uniform q => q.format
  | ternary _ => .ok .trit
  | binary q => .ok q.format

def project : Quantizer → Float → Float
  | uniform q => q.project
  | ternary q => q.project
  | binary q => q.project

def text : Quantizer → String
  | uniform q =>
    if q.keepNegative then
      "quantized_bits(" ++ toString q.bits ++ "," ++ toString q.integer ++ "," ++ (if q.symmetric then "1" else "0") ++
        ",alpha=" ++ q.alpha.text ++ ")"
    else "quantized_relu(" ++ toString q.bits ++ "," ++ toString q.integer ++ ")"
  | ternary q =>
    match q.threshold with
    | some t => "ternary(alpha=" ++ q.alpha.text ++ ",threshold=" ++ Binary64.text t ++ ")"
    | none => "ternary(alpha=" ++ q.alpha.text ++ ")"
  | binary q => if q.xnor then "binary(alpha=" ++ q.alpha.text ++ ")" else "binary_tanh"

end Quantizer

end FixedNet

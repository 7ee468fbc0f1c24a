import FixedNet.Quantizer.Basic
import FixedNet.Simulation.Library

namespace FixedNet

namespace TensorLibrary

variable (T : TensorLibrary)

def roundHalfEven (x : T.Tensor) : Except T.Refusal T.Tensor := do
  let nearest ← T.map .round x
  -- halved, a tie lies a quarter away from an integer, so that rounding takes the even side
  let even ← T.affine (← T.map .round (← T.affine x 0.5 0)) 2 0
  let tie ← T.compare .eq (← T.combine .sub x (← T.map .floor x)) 0.5
  T.select tie even nearest

def bipolar (x : T.Tensor) : Except T.Refusal T.Tensor := do
  T.affine (← T.toNumbers (← T.compare .ge x 0)) 2 (-1)

def ternary (x : T.Tensor) (cut : Float) : Except T.Refusal T.Tensor := do
  let up ← T.toNumbers (← T.compare .gt x cut)
  let down ← T.toNumbers (← T.compare .lt x (-cut))
  T.combine .sub up down

def uniform (q : Uniform) (x : T.Tensor) : Except T.Refusal T.Tensor := do
  if q.isBinary then T.bipolar x
  else
    let m := Binary64.pow2 (word32 (q.magnitude - q.integer))
    let levels ← T.roundHalfEven (← T.affine x m 0)
    T.affine (← T.clamp levels q.lowest q.highest) (1 / m) 0

def activation (q : Quantizer) (x : T.Tensor) : Except T.Refusal T.Tensor :=
  match q with
  | .uniform q => T.uniform q x
  | .ternary q => T.ternary x q.cut
  | .binary _ => T.bipolar x

def positiveOrOne (x : T.Tensor) : Except T.Refusal T.Tensor := do
  T.select (← T.compare .gt x 0) x (← T.map .one x)

/-- The largest magnitude of a channel becomes the end of the grid. -/
def uniformAuto (q : Uniform) (w : T.Tensor) : Except T.Refusal T.Tensor := do
  let peak ← T.reduce .max (← T.map .abs w)
  let scale ← T.positiveOrOne (← T.affine peak (1 / Binary64.pow2 q.integer) 0)
  T.broadcast .mul (← T.uniform q (← T.broadcast .div w scale)) scale

/-- The cut is a share of the largest magnitude, the scale the mean magnitude beyond it. -/
def ternaryAuto (q : Ternary) (w : T.Tensor) : Except T.Refusal T.Tensor := do
  let magnitude ← T.map .abs w
  let cut ← T.affine (← T.reduce .max magnitude) q.cut 0
  let up ← T.toNumbers (← T.broadcastCompare .gt w cut)
  let down ← T.toNumbers (← T.broadcastCompare .lt w (← T.map .neg cut))
  let codes ← T.combine .sub up down
  let kept ← T.map .abs codes
  let count ← T.reduce .sum kept
  let total ← T.reduce .sum (← T.combine .mul magnitude kept)
  let mean ← T.combine .div total (← T.clamp count 1 1.7976931348623157e308)
  let scale ← T.select (← T.compare .gt count 0) mean (← T.map .one count)
  T.broadcast .mul codes scale

/-- The scale is the mean magnitude. -/
def binaryAuto (w : T.Tensor) : Except T.Refusal T.Tensor := do
  let scale ← T.positiveOrOne (← T.reduce .mean (← T.map .abs w))
  T.broadcast .mul (← T.bipolar w) scale

def parameters (q : Quantizer) (w : T.Tensor) : Except T.Refusal T.Tensor := do
  match q.alpha, q with
  | .fixed a, .uniform q => T.affine (← T.uniform q (← T.affine w (1 / a) 0)) a 0
  | .fixed a, .ternary q => T.affine (← T.ternary w (q.cut * a)) a 0
  | .fixed a, .binary _ => T.affine (← T.bipolar w) a 0
  | .auto, .uniform q => T.uniformAuto q w
  | .auto, .ternary q => T.ternaryAuto q w
  | .auto, .binary _ => T.binaryAuto w

end TensorLibrary

end FixedNet

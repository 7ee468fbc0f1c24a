import FixedNet.Quantizer.Error

namespace FixedNet

/-- Every code of channel `c` is scaled by the scale at `c`; channels are equal stretches of the codes. -/
structure CodedTensor where
  codes : List Float
  scales : List Float
  encoding : Encoding

namespace CodedTensor

variable (t : CodedTensor)

def channels : Nat := t.scales.length

def channelLength : Nat := t.codes.length / max t.channels 1

def scaleOf (i : Nat) : Float := t.scales[i / max t.channelLength 1]?.getD 1

def isUnscaled : Bool := t.scales.all (· == 1)

def values : List Float :=
  t.codes.mapIdx fun i code ↦
    (match t.encoding with
      | .direct => code
      | .xnor => 2 * code - 1) * t.scaleOf i

end CodedTensor

def peak (channel : List Float) : Float := channel.foldl (fun p w ↦ Binary64.maxNum p w.abs) 0

def mean (xs : List Float) : Float := xs.foldl (· + ·) 0 / Binary64.ofInt xs.length

/-- The peak of the channel goes to the top of the integer range. -/
def Uniform.autoScale (q : Uniform) (channel : List Float) : Float :=
  let p := peak channel
  if 0 < p then p / Binary64.pow2 q.integer else 1

def Binary.autoScale (channel : List Float) : Float :=
  if channel.isEmpty then 1
  else
    let m := mean (channel.map Float.abs)
    if 0 < m then m else 1

/-- The cut stands at a share of the peak, and the scale is the mean magnitude of what exceeds it. -/
def Ternary.projectAuto (q : Ternary) (channel : List Float) : List Float × Float :=
  let cut := q.cut * peak channel
  let kept := (channel.map Float.abs).filter fun w ↦ cut < w
  (channel.map (selectCut cut), if kept.isEmpty then 1 else mean kept)

namespace Quantizer

/-- The codes and the scale of one channel. The levels of a uniform grid move with the scale; a ternary cut has
taken a fixed one into account already. -/
def projectChannel (q : Quantizer) (channel : List Float) : Except QuantizerError (List Float × Float) :=
  match q.alpha, q with
  | .fixed a, _ =>
    if a.isFinite && 0 < a then
      .ok (channel.map fun w ↦
        match q with
        | uniform u => u.project (w / a)
        | q => q.project w, a)
    else .error (.parameter (.alpha a))
  | .auto, uniform u =>
    let scale := u.autoScale channel
    .ok (channel.map fun w ↦ u.project (w / scale), scale)
  | .auto, ternary t => .ok (t.projectAuto channel)
  | .auto, binary b => .ok (channel.map b.project, Binary.autoScale channel)

/-- The first `count` stretches of `size` values. -/
def stretches {α : Type} (size : Nat) : Nat → List α → List (List α)
  | 0, _ => []
  | count + 1, xs => xs.take size :: stretches size count (xs.drop size)

/-- Channels without values get the scale one, whatever the quantizer. -/
def projectTensor (q : Quantizer) (values : List Float) (channels : Nat) : Except QuantizerError CodedTensor :=
  if channels = 0 ∨ values.length % channels ≠ 0 then .error (.parameter (.split values.length channels))
  else if values.isEmpty then .ok ⟨[], List.replicate channels 1, q.encoding⟩
  else do
    let projected ← (stretches (values.length / channels) channels values).mapM q.projectChannel
    return ⟨projected.flatMap Prod.fst, projected.map Prod.snd, q.encoding⟩

end Quantizer

end FixedNet

namespace FixedNet

/-- What is done to every number by itself. -/
inductive Pointwise
  | sqrt
  | round
  | floor
  | abs
  | neg
  | relu
  | one
  deriving DecidableEq

inductive Arithmetic
  | add
  | sub
  | mul
  | div
  deriving DecidableEq

inductive Comparison
  | eq
  | ge
  | gt
  | lt
  deriving DecidableEq

/-- What is taken of each row along the last dimension, of which a single number is left. -/
inductive Reduction
  | max
  | sum
  | mean
  deriving DecidableEq

/-- A library of tensors of binary64 numbers. It may refuse whatever it is asked for. -/
structure TensorLibrary where
  Tensor : Type
  /-- Tensors of truth values. -/
  Mask : Type
  Refusal : Type
  /-- A refusal that a caller words. -/
  stated : String → Refusal
  message : Refusal → String
  /-- The dimensions, the outermost first. -/
  dims : Tensor → List Nat
  maskDims : Mask → List Nat
  fromList : List Float → List Nat → Except Refusal Tensor
  toRows : Tensor → Except Refusal (List (List Float))
  map : Pointwise → Tensor → Except Refusal Tensor
  /-- Times a factor, plus an offset. -/
  affine : Tensor → Float → Float → Except Refusal Tensor
  clamp : Tensor → Float → Float → Except Refusal Tensor
  combine : Arithmetic → Tensor → Tensor → Except Refusal Tensor
  /-- The second tensor is repeated along dimensions of size one. -/
  broadcast : Arithmetic → Tensor → Tensor → Except Refusal Tensor
  compare : Comparison → Tensor → Float → Except Refusal Mask
  broadcastCompare : Comparison → Tensor → Tensor → Except Refusal Mask
  /-- One for what is true, zero for what is not. -/
  toNumbers : Mask → Except Refusal Tensor
  select : Mask → Tensor → Tensor → Except Refusal Tensor
  reduce : Reduction → Tensor → Except Refusal Tensor
  flatten : Tensor → Except Refusal Tensor
  /-- Joined along the last dimension. -/
  join : List Tensor → Except Refusal Tensor
  linear : (weight bias : Tensor) → Tensor → Except Refusal Tensor
  /-- Along the last dimension. -/
  softmax : Tensor → Except Refusal Tensor

end FixedNet

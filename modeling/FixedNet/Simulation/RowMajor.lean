import FixedNet.Network.Description
import FixedNet.Quantizer.Tensor
import FixedNet.Simulation.Library

namespace FixedNet

def Pointwise.apply (op : Pointwise) (x : Float) : Float :=
  match op with
  | sqrt => x.sqrt
  | round => x.round
  | floor => x.floor
  | abs => x.abs
  | neg => -x
  | relu => if 0 < x then x else 0
  | one => 1

def Arithmetic.apply (op : Arithmetic) (x y : Float) : Float :=
  match op with
  | add => x + y
  | sub => x - y
  | mul => x * y
  | div => x / y

def Comparison.apply (op : Comparison) (x y : Float) : Bool :=
  match op with
  | eq => x == y
  | ge => y ≤ x
  | gt => y < x
  | lt => x < y

def sumFloats (xs : List Float) : Float := xs.foldl (· + ·) 0

def largestFloat : List Float → Float
  | [] => 0
  | x :: xs => xs.foldl (fun a y ↦ if a < y then y else a) x

def Reduction.apply (op : Reduction) (xs : List Float) : Float :=
  match op with
  | max => largestFloat xs
  | sum => sumFloats xs
  | mean => sumFloats xs * (1 / Binary64.ofInt xs.length)

structure RowMajor (α : Type) where
  dims : List Nat
  entries : List α

namespace RowMajor

variable {α β : Type}

def mapEntries (f : α → β) (x : RowMajor α) : RowMajor β := ⟨x.dims, x.entries.map f⟩

def mismatch {γ : Type} (dims dims' : List Nat) : Except String γ :=
  .error ("shape mismatch " ++ toString dims ++ " and " ++ toString dims')

def zipEntries (f : α → α → β) (x y : RowMajor α) : Except String (RowMajor β) :=
  if x.dims = y.dims then .ok ⟨x.dims, List.zipWith f x.entries y.entries⟩ else mismatch x.dims y.dims

def rows (rows columns : Nat) (x : RowMajor α) : List (List α) := Quantizer.stretches columns rows x.entries

def repeated (m n a b : Nat) (x : RowMajor α) : List α :=
  let wide := (x.rows a b).map fun row ↦ if b = n then row else row.flatMap (List.replicate n)
  if a = m then wide.flatten else (List.replicate m wide.flatten).flatten

def zipRepeated (f : α → α → β) (x y : RowMajor α) : Except String (RowMajor β) :=
  match x.dims, y.dims with
  | [m, n], [a, b] =>
    if (a = m ∨ a = 1) ∧ (b = n ∨ b = 1) then .ok ⟨[m, n], List.zipWith f x.entries (y.repeated m n a b)⟩
    else mismatch x.dims y.dims
  | _, _ => mismatch x.dims y.dims

def reduce (op : Reduction) (x : RowMajor Float) : Except String (RowMajor Float) :=
  match x.dims with
  | [m, n] =>
    if op = .max ∧ word64 (m * n) = 0 then .error "empty tensor for reduce"
    else .ok ⟨[m, 1], (x.rows m n).map op.apply⟩
  | dims => mismatch dims []

def linear (weight bias x : RowMajor Float) : Except String (RowMajor Float) :=
  match weight.dims, bias.dims, x.dims with
  | [units, n], [count], [m, width] =>
    if width = n ∧ count = units then
      let unit (row : List Float) (u : List Float × Float) : Float := sumFloats (List.zipWith (· * ·) row u.1) + u.2
      .ok ⟨[m, units], (x.rows m n).flatMap fun row ↦ ((weight.rows units n).zip bias.entries).map (unit row)⟩
    else mismatch weight.dims x.dims
  | _, _, _ => mismatch weight.dims x.dims

def softmax (x : RowMajor Float) : Except String (RowMajor Float) := do
  let exps := mapEntries Float.exp (← zipRepeated (· - ·) x (← reduce .max x))
  zipRepeated (· / ·) exps (← reduce .sum exps)

def join (xs : List (RowMajor α)) : Except String (RowMajor α) := do
  let parts ← xs.mapM fun x ↦
    match x.dims with
    | [m, n] => .ok (m, n, x.rows m n)
    | dims => mismatch dims []
  match parts with
  | [] => .error "no tensors to join"
  | (m, n, rows) :: parts =>
    if parts.all fun part ↦ part.1 = m then
      let joined := parts.foldl (fun rows part ↦ List.zipWith (· ++ ·) rows part.2.2) rows
      .ok ⟨[m, parts.foldl (fun sum part ↦ sum + part.2.1) n], joined.flatten⟩
    else mismatch [m, n] []

end RowMajor

/-- Tensors of any rank can be built; beyond one number at a time the library works on matrices. -/
def TensorLibrary.rowMajor : TensorLibrary where
  Tensor := RowMajor Float
  Mask := RowMajor Bool
  Refusal := String
  stated := id
  message := id
  dims := RowMajor.dims
  maskDims := RowMajor.dims
  fromList values dims :=
    if word64 values.length = word64 (dims.foldl (· * ·) 1) then .ok ⟨dims, values⟩
    else RowMajor.mismatch dims [values.length]
  toRows x :=
    match x.dims with
    | [m, n] => .ok (x.rows m n)
    | dims => RowMajor.mismatch dims []
  map op x := .ok (x.mapEntries op.apply)
  affine x factor offset := .ok (x.mapEntries fun v ↦ v * factor + offset)
  clamp x low high := .ok (x.mapEntries (clampFloat low high))
  combine op := RowMajor.zipEntries op.apply
  broadcast op := RowMajor.zipRepeated op.apply
  compare op x bound := .ok (x.mapEntries fun v ↦ op.apply v bound)
  broadcastCompare op := RowMajor.zipRepeated op.apply
  toNumbers mask := .ok (mask.mapEntries fun b ↦ if b then 1 else 0)
  select mask x y :=
    if mask.dims = x.dims ∧ x.dims = y.dims then
      .ok ⟨x.dims, List.zipWith (fun b (v : Float × Float) ↦ if b then v.1 else v.2)
        mask.entries (x.entries.zip y.entries)⟩
    else RowMajor.mismatch x.dims y.dims
  reduce := RowMajor.reduce
  flatten x := .ok ⟨[x.dims.foldl (· * ·) 1], x.entries⟩
  join := RowMajor.join
  linear := RowMajor.linear
  softmax := RowMajor.softmax

end FixedNet

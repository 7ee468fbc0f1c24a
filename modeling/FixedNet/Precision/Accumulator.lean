import FixedNet.Network.Graph

namespace FixedNet

structure Width where
  integer : Int
  frac : Int
  signed : Bool
  deriving DecidableEq

def ceilLog2 (n : Nat) : Nat := if n ≤ 1 then 0 else (n - 1).log2 + 1

/-- Integer bits of an operand among others of which some may be signed. -/
def Format.integerBeside (f : Format) (signed : Bool) : Int := f.integer + if signed && !f.signed then 1 else 0

/-- The format in which values arrive: codes that stand for `-1` and `1` need two bits and a sign. -/
def Format.decoded (f : Format) : Encoding → Format
  | .direct => f
  | .xnor => .trit

namespace Width

def ofFormat (f : Format) : Width := ⟨f.integer, f.frac, f.signed⟩

def product (a b : Format) : Width :=
  let signed := a.signed || b.signed
  ⟨a.integerBeside signed + b.integerBeside signed, a.frac + b.frac, signed⟩

def union (fs : List Format) : Width :=
  let signed := fs.any Format.signed
  ⟨(fs.map fun f ↦ f.integerBeside signed).max?.getD 0, (fs.map Format.frac).max?.getD 0, signed⟩

def widen (w : Width) (terms : Nat) : Width := { w with integer := w.integer + ceilLog2 terms }

/-- At most 64 bits: fractional bits are dropped for the rest. -/
def toFormat (w : Width) : Except NumericError Format :=
  let total := w.integer + w.frac
  let frac := if 64 < total then w.frac - (total - 64) else w.frac
  let total := max (min total 64) 1
  Format.make total.toNat (total - frac) w.signed

end Width

inductive ResolveError
  | absentLayers (names : List String)
  | unresolved (layer : String) (slot : Slot)
  | partialOverride (slot : Slot)
  | noInput (layer : String)
  | quantizer (layer : String) (error : QuantizerError)
  | numeric (error : NumericError)

def ResolveError.message : ResolveError → String
  | .absentLayers names =>
    "Configuration conflict: configuration names layers not in the graph: " ++ String.intercalate ", " names
  | .unresolved layer slot => "Layer '" ++ layer ++ "' has no resolved " ++ slot.name ++ " type"
  | .partialOverride slot =>
    "Invalid configuration: partial override of " ++ slot.name ++ " has no type to merge onto"
  | .noInput layer => "Invalid graph: layer '" ++ layer ++ "' has no input"
  | .quantizer layer error => "Layer '" ++ layer ++ "': " ++ error.message
  | .numeric error => "Fixed-point error: " ++ error.message

namespace Layer

variable {n : Nat} (layer : Layer n)

def operand (formats : SlotMap Format) (p : Slot) : Except ResolveError Format :=
  match formats.get p with
  | some f => .ok f
  | none => .error (.unresolved layer.name p)

def firstInput : List Format → Except ResolveError Format
  | f :: _ => .ok f
  | [] => .error (.noInput layer.name)

/-- The accumulator that the formats of the operands and of the inputs, as they arrive, ask for. -/
def accumulatorWidth (formats : SlotMap Format) (inputs : List Format) : Except ResolveError (Option Width) :=
  match layer.op with
  | .dense inFeatures _ _ kernelQuantizer _ => do
    let weight ← layer.operand formats .weight
    let input ← layer.firstInput inputs
    let encoding := (kernelQuantizer.map Quantizer.encoding).getD .direct
    return some ((Width.product input (weight.decoded encoding)).widen inFeatures)
  | .batchNorm .. => do
    let input ← layer.firstInput inputs
    let scale ← layer.operand formats .scale
    return some (Width.product input scale)
  | .add => return some ((Width.union inputs).widen inputs.length)
  | .softmax => do
    let exp ← layer.operand formats .expTable
    return some ((Width.ofFormat exp).widen layer.features)
  | .input | .activation _ | .concatenate => return none

def inferAccumulator (formats : SlotMap Format) (inputs : List Format) : Except ResolveError (Option Format) := do
  match ← layer.accumulatorWidth formats inputs with
  | some w => return some (← w.toFormat.mapError .numeric)
  | none => return none

end Layer

end FixedNet

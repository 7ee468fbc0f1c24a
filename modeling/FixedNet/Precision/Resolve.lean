import FixedNet.Precision.Accumulator
import FixedNet.Precision.Config

namespace FixedNet

def expTableDefault : Format := { total := 18, integer := 8, signed := true }

def invTableDefault : Format := { total := 18, integer := 4, signed := true }

def Format.ofSlot (default : Format) : Slot → Format
  | .expTable => expTableDefault
  | .invTable => invTableDefault
  | _ => default

def SlotMap.fillDefaults (default : Format) (required : List Slot) (formats : SlotMap Format) : SlotMap Format :=
  required.foldl (fun m p ↦ m.set p (some ((m.get p).getD (default.ofSlot p)))) formats

def Override.applyTo (o : Override) (p : Slot) : Option Format → Except ResolveError Format
  | some base => (o.apply base).mapError .numeric
  | none =>
    match o.format? with
    | some f => .ok f
    | none => .error (.partialOverride p)

/-- Applies overrides slot by slot and stops at the first that fails. -/
def SlotMap.override (overrides : SlotMap Override) :
    List Slot → SlotMap Format → SlotMap Format × Except ResolveError Unit
  | [], formats => (formats, .ok ())
  | p :: ps, formats =>
    match overrides.get p with
    | none => override overrides ps formats
    | some o =>
      match o.applyTo p (formats.get p) with
      | .ok f => override overrides ps (formats.set p (some f))
      | .error e => (formats, .error e)

def SlotMap.overridden (overrides : SlotMap Override) (allowed : List Slot) (formats : SlotMap Format) :
    Except ResolveError (SlotMap Format) :=
  match SlotMap.override overrides allowed formats with
  | (formats, .ok ()) => .ok formats
  | (_, .error e) => .error e

namespace Layer

variable {n : Nat} (layer : Layer n)

def quantizerFormat (q : Quantizer) : Except ResolveError Format :=
  q.format.mapError fun e ↦ .quantizer layer.name (.numeric e)

def quantizerFormat? : Option Quantizer → Except ResolveError (Option Format)
  | some q => (layer.quantizerFormat q).map some
  | none => .ok none

/-- The formats that the quantizers of the layer imply. -/
def derivedFormats : Except ResolveError (SlotMap Format) :=
  match layer.op with
  | .dense _ _ _ kernelQuantizer biasQuantizer => do
    let weight ← layer.quantizerFormat? kernelQuantizer
    let bias ← layer.quantizerFormat? biasQuantizer
    return { weight, bias }
  | .activation (.quantized q) => do
    let result ← layer.quantizerFormat q
    return { result := some result }
  | _ => return {}

def operandSlots : List Slot := layer.op.requiredSlots.filter (· ≠ .accum)

def overrideBoth (model : Scope) (own : Option Scope) (allowed : List Slot) (formats : SlotMap Format) :
    Except ResolveError (SlotMap Format) := do
  let formats ← SlotMap.overridden model.overrides allowed formats
  match own with
  | some own => SlotMap.overridden own.overrides allowed formats
  | none => return formats

def resolveFormats (c : Config) (inputs : List Format) : Except ResolveError (SlotMap Format) := do
  let own := c.layers[layer.name]?
  let derived ← layer.derivedFormats
  let filled := derived.fillDefaults c.default layer.operandSlots
  let operands ← overrideBoth c.model own layer.operandSlots filled
  if layer.op.requiredSlots.contains .accum then do
    let accum ← layer.inferAccumulator operands inputs
    overrideBoth c.model own [.accum] { operands with accum }
  else return operands

def resolveTableSize (c : Config) : Nat :=
  (((c.layers[layer.name]?.bind Scope.tableSize).or c.model.tableSize)).getD 1024

end Layer

namespace Graph

variable (g : Graph)

/-- The format in which the outputs of a layer arrive at the layers that read it. -/
def arriving (t : Typing g) (i : Fin g.size) : Except ResolveError Format :=
  match (t.get i).formats.result with
  | some f => .ok (f.decoded (g.layer i).op.encoding)
  | none => .error (.unresolved (g.layer i).name .result)

def resolveLayer (c : Config) (t : Typing g) (i : Fin g.size) : Except ResolveError LayerFormats := do
  let inputs ← (g.layer i).inputs.mapM (g.arriving t)
  let formats ← (g.layer i).resolveFormats c inputs
  return ⟨formats, (g.layer i).resolveTableSize c⟩

/-- Resolves layers in turn; a failure leaves the layers before it resolved and the others as they were. -/
def resolveAlong (c : Config) : List (Fin g.size) → Typing g → Typing g × Except ResolveError Unit
  | [], t => (t, .ok ())
  | i :: order, t =>
    match g.resolveLayer c t i with
    | .ok typed => resolveAlong c order (t.set i typed)
    | .error e => (t, .error e)

/-- The layers a configuration names that the graph does not have, in the order of their names. -/
def absentLayers (c : Config) : List String := c.layers.keys.filter fun name ↦ (g.find? name).isNone

def resolve (c : Config) (t : Typing g) : Typing g × Except ResolveError Unit :=
  let absent := g.absentLayers c
  if absent.isEmpty then g.resolveAlong c g.order t else (t, .error (.absentLayers absent))

end Graph

end FixedNet

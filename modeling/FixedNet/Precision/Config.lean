import Std.Data.ExtTreeMap
import FixedNet.Precision.Override
import FixedNet.Text.Integer

namespace FixedNet

structure Config where
  default : Format := Inhabited.default
  model : Scope := {}
  layers : Std.ExtTreeMap String Scope := {}

inductive ConfigError
  | unknownKey (key : String)
  | unknownSlot (name : String)
  | unknownField (field : String)
  | badValue (value field : String)
  | badTableSize (value : String)
  | zeroTableSize
  | unknownGranularity (name : String)
  | numeric (error : NumericError)

def ConfigError.message : ConfigError → String
  | .unknownKey key => "Invalid configuration: unknown configuration key '" ++ key ++ "'"
  | .unknownSlot name => "Invalid configuration: unknown port '" ++ name ++ "'"
  | .unknownField field => "Invalid configuration: unknown type field '" ++ field ++ "'"
  | .badValue value field => "Invalid configuration: bad value '" ++ value ++ "' for " ++ field
  | .badTableSize value => "Invalid configuration: bad table_size '" ++ value ++ "'"
  | .zeroTableSize => "Invalid configuration: table_size must be at least 1"
  | .unknownGranularity name => "Invalid configuration: unknown granularity '" ++ name ++ "'"
  | .numeric error => "Fixed-point error: " ++ error.message

/-- How finely an exported configuration is spelled out. -/
inductive Granularity
  | model
  | name
  deriving DecidableEq

def Granularity.read (text : String) : Except ConfigError Granularity :=
  match String.ofList (Text.lower text.toList) with
  | "model" => .ok .model
  | "name" | "layername" => .ok .name
  | _ => .error (.unknownGranularity text)

def Slot.read (name : String) : Except ConfigError Slot :=
  match Slot.read? name with
  | some p => .ok p
  | none => .error (.unknownSlot name)

namespace Config

def scope (c : Config) : Option String → Scope
  | none => c.model
  | some name => c.layers[name]?.getD {}

def setScope (c : Config) (name : Option String) (s : Scope) : Config :=
  match name with
  | none => { c with model := s }
  | some name => { c with layers := c.layers.insert name s }

def modifyScope (c : Config) (name : Option String) (f : Scope → Scope) : Config := c.setScope name (f (c.scope name))

def touch (c : Config) (name : Option String) : Config := c.modifyScope name id

end Config

/-- Lookup tables have at least one entry. -/
def Scope.setTableSize (s : Scope) (size : Nat) : Except ConfigError Scope :=
  if size = 0 then .error .zeroTableSize else .ok { s with tableSize := some size }

namespace Config

def setFormat (c : Config) (scope : Option String) (p : Slot) (f : Format) : Config :=
  c.modifyScope scope fun s ↦ s.setFormat p f

/-- The scope comes into being even if the size is refused. -/
def setTableSize (c : Config) (scope : Option String) (size : Nat) : Config × Except ConfigError Unit :=
  match (c.scope scope).setTableSize size with
  | .ok s => (c.setScope scope s, .ok ())
  | .error e => (c.touch scope, .error e)

end Config

inductive Setting
  | default
  | format (scope : Option String) (slot : Slot)
  | field (scope : Option String) (slot : Slot) (field : String)
  | tableSize (scope : Option String)

namespace Setting

/-- The scope that the first segments of a key name, and the segments after it. -/
def readScope : List String → Option (Option String × List String)
  | [] => none
  | scope :: rest =>
    match String.ofList (Text.lower scope.toList), rest with
    | "model", rest => some (none, rest)
    | "layername", name :: rest | "name", name :: rest => if name.isEmpty then none else some (some name, rest)
    | _, _ => none

/-- Segments stand between points, blanks around them aside. A layer as a whole means its result. -/
def read (key : String) : Except ConfigError Setting :=
  let segments := (Text.splitAll '.' key.toList).map fun s ↦ String.ofList (Text.trim s)
  match readScope segments with
  | none => .error (.unknownKey key)
  | some (none, ["Precision"]) => .ok default
  | some (some name, ["Precision"]) => .ok (format (some name) .result)
  | some (scope, ["Precision", slot]) => (Slot.read slot).map (format scope)
  | some (scope, ["Precision", slot, name]) => (Slot.read slot).map fun p ↦ field scope p name
  | some (scope, ["exp_table_t"]) => .ok (format scope .expTable)
  | some (scope, ["inv_table_t"]) => .ok (format scope .invTable)
  | some (scope, ["table_size"]) => .ok (tableSize scope)
  | some _ => .error (.unknownKey key)

end Setting

def readBool (value : List Char) : Option Bool :=
  match String.ofList (Text.lower value) with
  | "true" | "1" | "yes" => some true
  | "false" | "0" | "no" => some false
  | _ => none

namespace Override

def setField (o : Override) (field value : String) : Except ConfigError Override :=
  let orBad {α : Type} : Option α → Except ConfigError α
    | some a => .ok a
    | none => .error (.badValue value field)
  match field with
  | "total_bits" | "width" => do
    let n ← orBad (Text.readUnsigned 32 value.toList)
    return { o with total := some n }
  | "integer_bits" | "integer" => do
    let n ← orBad (Text.readSigned 32 value.toList)
    return { o with integer := some n }
  | "is_signed" | "signed" => do
    let b ← orBad (readBool value.toList)
    return { o with signed := some b }
  | "rounding_mode" | "rounding" =>
    match Rounding.read? value with
    | some r => .ok { o with rounding := some r }
    | none => .error (.numeric (.unknownRounding value))
  | "saturation_mode" | "saturation" =>
    match Overflow.read? value with
    | some w => .ok { o with overflow := some w }
    | none => .error (.numeric (.unknownOverflow value))
  | _ => .error (.unknownField field)

end Override

namespace Config

def readFormat (value : String) : Except ConfigError Format := (Format.read value).mapError .numeric

/-- Gives a setting the value that a text denotes. The scope, and for a field the override, that the key addresses
come into being before the value is read; a table size is read first. -/
def assign (c : Config) (s : Setting) (value : String) : Config × Except ConfigError Unit :=
  match s with
  | .default =>
    match readFormat value with
    | .ok f => ({ c with default := f }, .ok ())
    | .error e => (c, .error e)
  | .format scope slot =>
    match readFormat value with
    | .ok f => (c.setFormat scope slot f, .ok ())
    | .error e => (c.touch scope, .error e)
  | .field scope slot field =>
    let o := (c.scope scope).override slot
    match o.setField field value with
    | .ok o => (c.modifyScope scope fun s ↦ s.setOverride slot o, .ok ())
    | .error e => (c.modifyScope scope fun s ↦ s.setOverride slot o, .error e)
  | .tableSize scope =>
    match Text.readUnsigned 64 value.toList with
    | none => (c, .error (.badTableSize value))
    | some size => c.setTableSize scope size

def set (c : Config) (key value : String) : Config × Except ConfigError Unit :=
  match Setting.read key with
  | .ok s => c.assign s (String.ofList (Text.trim value.toList))
  | .error e => (c, .error e)

/-- Sets pairs in order and stops at the first that fails. -/
def setAll (c : Config) : List (String × String) → Config × Except ConfigError Unit
  | [] => (c, .ok ())
  | (key, value) :: pairs =>
    match c.set key value with
    | (c, .ok ()) => setAll c pairs
    | failed => failed

end Config

end FixedNet

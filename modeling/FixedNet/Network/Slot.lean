import FixedNet.Numeric.FormatText

namespace FixedNet

inductive Slot
  | weight
  | bias
  | scale
  | accum
  | result
  | expTable
  | invTable
  deriving DecidableEq

namespace Slot

def all : List Slot := [weight, bias, scale, accum, result, expTable, invTable]

def name : Slot → String
  | weight => "weight"
  | bias => "bias"
  | scale => "scale"
  | accum => "accum"
  | result => "result"
  | expTable => "exp_table"
  | invTable => "inv_table"

def read? : String → Option Slot
  | "weight" => some weight
  | "bias" => some bias
  | "scale" => some scale
  | "accum" => some accum
  | "result" => some result
  | "exp_table" | "exp_table_t" => some expTable
  | "inv_table" | "inv_table_t" => some invTable
  | _ => none

theorem read?_name (p : Slot) : read? p.name = some p := by cases p <;> rfl

end Slot

@[ext]
structure SlotMap (α : Type) where
  weight : Option α := none
  bias : Option α := none
  scale : Option α := none
  accum : Option α := none
  result : Option α := none
  expTable : Option α := none
  invTable : Option α := none
  deriving DecidableEq

namespace SlotMap

variable {α : Type}

def empty : SlotMap α := {}

def get (m : SlotMap α) : Slot → Option α
  | .weight => m.weight
  | .bias => m.bias
  | .scale => m.scale
  | .accum => m.accum
  | .result => m.result
  | .expTable => m.expTable
  | .invTable => m.invTable

def set (m : SlotMap α) (p : Slot) (a : Option α) : SlotMap α :=
  match p with
  | .weight => { m with weight := a }
  | .bias => { m with bias := a }
  | .scale => { m with scale := a }
  | .accum => { m with accum := a }
  | .result => { m with result := a }
  | .expTable => { m with expTable := a }
  | .invTable => { m with invTable := a }

def toList (m : SlotMap α) : List (Slot × α) := Slot.all.filterMap fun p ↦ (m.get p).map fun a ↦ (p, a)

def isEmpty (m : SlotMap α) : Bool := Slot.all.all fun p ↦ (m.get p).isNone

@[simp]
theorem get_empty (p : Slot) : (empty : SlotMap α).get p = none := by cases p <;> rfl

theorem get_set (m : SlotMap α) (p q : Slot) (a : Option α) :
    (m.set p a).get q = if p = q then a else m.get q := by
  cases p <;> cases q <;> rfl

theorem ext_get {m m' : SlotMap α} (h : ∀ p, m.get p = m'.get p) : m = m' :=
  SlotMap.ext (h .weight) (h .bias) (h .scale) (h .accum) (h .result) (h .expTable) (h .invTable)

end SlotMap

/-- What a layer holds besides its structure: the formats of its slots, and the size of its lookup tables. -/
structure LayerFormats where
  formats : SlotMap Format := {}
  tableSize : Nat := 1024
  deriving DecidableEq

end FixedNet

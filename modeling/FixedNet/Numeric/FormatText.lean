import FixedNet.Numeric.Format

namespace FixedNet.Format

open scoped FixedNet.Power

/-- The modes are written only where one of them differs from the default. -/
def text (f : Format) : String :=
  let modes :=
    if f.rounding ≠ .down ∨ f.overflow ≠ .wrap then "," ++ f.rounding.name ++ "," ++ f.overflow.name else ""
  (if f.signed then "fixed<" else "ufixed<") ++ toString f.total ++ "," ++ toString f.integer ++ modes ++ ">"

/-- The name in front of the bracket and the arguments inside, or nothing if the brackets are not in place. -/
def splitText (text : String) : Option (String × List (List Char)) := do
  let (name, rest) ← Text.splitFirst '<' (Text.trim text.toList)
  let body ← Text.stripLast '>' rest
  let name := Text.lower (Text.trim name)
  let name := (Text.stripFront ['a', 'p', '_'] name).getD name
  return (String.ofList name, (Text.splitAll ',' body).map Text.trim)

def readWidth (arg : List Char) : Option Nat :=
  (Text.readSigned 64 arg).bind fun n ↦ if 0 ≤ n ∧ n < 2 ^ (32 : Nat) then some n.toNat else none

def readRounding (arg : List Char) : Except NumericError Rounding :=
  match Rounding.read? (String.ofList arg) with
  | some r => .ok r
  | none => .error (.unknownRounding (String.ofList arg))

def readOverflow (arg : List Char) : Except NumericError Overflow :=
  match Overflow.read? (String.ofList arg) with
  | some o => .ok o
  | none => .error (.unknownOverflow (String.ofList arg))

/-- Widths that do not read are reported before widths out of bounds, and these before unknown modes. -/
def read (text : String) : Except NumericError Format :=
  let malformed {α : Type} : Except NumericError α := .error (.malformed text)
  let fixed (signed : Bool) (total integer : List Char) : Except NumericError Format :=
    match readWidth total, Text.readSigned 32 integer with
    | some total, some integer => make total integer signed
    | _, _ => malformed
  let arguments (signed : Bool) : List (List Char) → Except NumericError Format
    | [total, integer] => fixed signed total integer
    | [total, integer, rounding] => do
      let f ← fixed signed total integer
      let r ← readRounding rounding
      return f.withRounding r
    | [total, integer, rounding, overflow] => do
      let f ← fixed signed total integer
      let r ← readRounding rounding
      let o ← readOverflow overflow
      return (f.withRounding r).withOverflow o
    | _ => malformed
  let width (signed : Bool) : List (List Char) → Except NumericError Format
    | [total] =>
      match readWidth total with
      | some total => ofWidth total signed
      | none => malformed
    | _ => malformed
  match splitText text with
  | some ("fixed", args) => arguments true args
  | some ("ufixed", args) => arguments false args
  | some ("int", args) => width true args
  | some ("uint", args) => width false args
  | _ => malformed

end FixedNet.Format

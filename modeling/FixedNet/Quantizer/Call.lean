import FixedNet.Binary64.Decimal
import FixedNet.Text.Blank

namespace FixedNet

inductive Argument
  | number (value : Float)
  | text (value : String)
  deriving BEq

structure Call where
  name : String
  args : List Argument := []
  kwargs : List (String × Argument) := []
  deriving BEq

namespace Argument

def written : Argument → String
  | number value => Binary64.text value
  | text value => "'" ++ value ++ "'"

def number? : Argument → Option Float
  | number value => some value
  | text _ => none

def unquote (quote : Char) (cs : List Char) : Option (List Char) :=
  (Text.stripFront [quote] cs).bind (Text.stripLast quote)

/-- Truth values are the numbers one and zero; whatever reads as a number is one; the rest must be in quotes. -/
def read? (cs : List Char) : Option Argument :=
  match String.ofList cs with
  | "True" | "true" => some (number 1)
  | "False" | "false" => some (number 0)
  | "None" => some (text "None")
  | _ =>
    match Binary64.read? cs with
    | some x => some (number x)
    | none => ((unquote '\'' cs).or (unquote '"' cs)).map fun t ↦ text (String.ofList t)

end Argument

namespace Call

def get? (call : Call) (keyword : String) (position : Nat) : Option Argument :=
  (call.kwargs.lookup keyword).or call.args[position]?

def unknownKeywords (call : Call) (known : List String) : List String :=
  (call.kwargs.map Prod.fst).filter fun k ↦ !known.contains k

def text (call : Call) : String :=
  let keywords := call.kwargs.map fun p ↦ p.1 ++ "=" ++ p.2.written
  call.name ++ "(" ++ String.intercalate "," (call.args.map Argument.written ++ keywords) ++ ")"

def isIdentifier (cs : List Char) : Bool := !cs.isEmpty && cs.all fun c ↦ c.isAlphanum || c = '_'

/-- Adds the argument that a piece between commas denotes. A positional one may not follow a keyword. -/
def addPiece (call : Call) (piece : List Char) : Option Call :=
  match Text.splitFirst '=' piece with
  | some (key, value) => do
    let value ← Argument.read? (Text.trim value)
    return { call with kwargs := call.kwargs ++ [(String.ofList (Text.trim key), value)] }
  | none =>
    if call.kwargs.isEmpty then do
      let value ← Argument.read? piece
      return { call with args := call.args ++ [value] }
    else none

/-- Pieces that are blank are skipped. -/
def readBody (name body : List Char) : Option Call :=
  if isIdentifier name && !body.contains '(' && !body.contains ')' then
    let pieces := ((Text.splitAll ',' body).map Text.trim).filter (!·.isEmpty)
    pieces.foldlM addPiece { name := String.ofList name }
  else none

/-- A bare name, or a name with its arguments in brackets that close the text. -/
def read? (s : String) : Option Call :=
  let cs := Text.trim s.toList
  match Text.splitFirst '(' cs with
  | none => if isIdentifier cs then some { name := String.ofList cs } else none
  | some (name, rest) => (Text.stripLast ')' rest).bind (readBody (Text.trim name))

end Call

end FixedNet

import FixedNet.Binary64.Decimal

namespace FixedNet

/-- The step of exact arithmetic whose result left the 128-bit word. -/
inductive Operation
  | multiplication
  | addition
  | negation
  | alignment
  deriving DecidableEq

def Operation.name : Operation → String
  | multiplication => "multiplication"
  | addition => "addition"
  | negation => "negation"
  | alignment => "alignment"

inductive NumericError
  | invalidWidth (total : Nat) (integer : Int)
  | malformed (text : String)
  | unknownRounding (text : String)
  | unknownOverflow (text : String)
  | nonFinite (value : Float)
  | overflow (operation : Operation)
  deriving DecidableEq

def NumericError.message : NumericError → String
  | invalidWidth total integer =>
    "Invalid width: " ++ toString total ++ " total bits with " ++ toString integer ++ " integer bits"
  | malformed text => "Cannot parse numeric type '" ++ text ++ "'"
  | unknownRounding text => "Unknown rounding mode '" ++ text ++ "'"
  | unknownOverflow text => "Unknown saturation mode '" ++ text ++ "'"
  | nonFinite value => "Non-finite value " ++ Binary64.text value ++ " cannot be quantized"
  | overflow operation => "Fixed-point overflow during " ++ operation.name

end FixedNet

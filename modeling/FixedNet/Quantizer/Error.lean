import FixedNet.Quantizer.Basic
import FixedNet.Quantizer.Call
import FixedNet.Text.Quoted

namespace FixedNet

inductive Unsupported
  | name (name : String)
  | keywords (call : Call) (unknown : List String)
  | positional (call : Call)
  | flag (call : Call) (keyword : String)
  | alpha (call : Call) (text : String)
  | activation (q : Quantizer)

inductive BadParameter
  | value (call : Call) (keyword : String)
  | bits (count : Nat)
  | split (values channels : Nat)
  | alpha (value : Float)

inductive QuantizerError
  | unsupported (reason : Unsupported)
  | malformed (text : String)
  | parameter (reason : BadParameter)
  | numeric (error : NumericError)

def Unsupported.message : Unsupported → String
  | .name n => "no fixed-point mapping for quantizer '" ++ n ++ "'"
  | .keywords call unknown => call.text ++ ": unsupported arguments " ++ Text.bracketed (unknown.map Text.quoted)
  | .positional call => call.text ++ ": too many positional arguments"
  | .flag call keyword => call.text ++ ": '" ++ keyword ++ "' is not supported"
  | .alpha call text => call.text ++ ": alpha '" ++ text ++ "' is not supported"
  | .activation q =>
    "activation quantizer " ++ q.text ++ " has alpha " ++ q.alpha.text ++ ", which has no fixed-point form"

def BadParameter.message : BadParameter → String
  | .value call keyword => call.text ++ ": bad value for '" ++ keyword ++ "'"
  | .bits count => "uniform quantizer needs 1 to 64 bits, got " ++ toString count
  | .split values channels =>
    "tensor of " ++ toString values ++ " values cannot be split into " ++ toString channels ++ " channels"
  | .alpha a => "alpha must be positive and finite, got " ++ Binary64.text a

def QuantizerError.message : QuantizerError → String
  | .unsupported reason => "Unsupported quantizer: " ++ reason.message
  | .malformed text => "Cannot parse quantizer '" ++ text ++ "'"
  | .parameter reason => "Invalid quantizer parameter: " ++ reason.message
  | .numeric error => "Fixed-point error: " ++ error.message

end FixedNet

import FixedNet.Inference.Batch
import FixedNet.Precision.Export
import FixedNet.Precision.OutputModes

namespace FixedNet

structure Conversion where
  precision : Config := {}
  modes : Option OutputModes := none

inductive ConversionError
  | graph (error : GraphError)
  | resolve (error : ResolveError)
  | compile (error : CompileError)

namespace Conversion

variable (c : Conversion)

def build (d : Description) : Except ConversionError ((g : Graph) × Typing g) := do
  let g ← (Graph.ofDescription d).mapError .graph
  match g.resolve c.precision g.untyped with
  | (_, .error e) => throw (.resolve e)
  | (t, .ok ()) =>
    match c.modes with
    | none => return ⟨g, t⟩
    | some m => do
      let (t, _) ← (m.apply g t).mapError .resolve
      return ⟨g, t⟩

def convert (d : Description) : Except ConversionError Plan := do
  let ⟨g, t⟩ ← c.build d
  (g.compile t).mapError .compile

end Conversion

end FixedNet

import FixedNet.Precision.Resolve

namespace FixedNet

/-- The formats of the slots, accumulators aside, that a layer has without any configuration. -/
def Layer.exportScope {n : Nat} (layer : Layer n) (default : Format) : Except ResolveError Scope := do
  let derived ← layer.derivedFormats
  let formats := derived.fillDefaults default layer.operandSlots
  let scope := layer.operandSlots.foldl
    (fun s p ↦
      match formats.get p with
      | some f => s.setFormat p f
      | none => s) ({} : Scope)
  match layer.op with
  | .softmax => return { scope with tableSize := some 1024 }
  | _ => return scope

def Graph.exportConfig (g : Graph) : Granularity → Except ResolveError Config
  | .model => .ok {}
  | .name =>
    g.layers.toList.foldlM
      (fun c layer ↦ do
        let scope ← layer.exportScope c.default
        return c.setScope (some layer.name) scope) ({} : Config)

end FixedNet

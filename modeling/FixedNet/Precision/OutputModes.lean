import FixedNet.Precision.Resolve

namespace FixedNet

/-- Targets are names of layers or of classes. -/
structure OutputModes where
  targets : List String
  rounding : Rounding
  overflow : Overflow

def LayerFormats.withResult (l : LayerFormats) (f : Option Format) : LayerFormats :=
  { l with formats := { l.formats with result := f } }

namespace OutputModes

variable (m : OutputModes)

def isTarget {n : Nat} (layer : Layer n) : Bool :=
  m.targets.any fun t ↦ t == layer.name || t == layer.op.className

def adjust (f : Format) : Format := (f.withRounding m.rounding).withOverflow m.overflow

variable (g : Graph)

def untypedTarget? (t : Typing g) : Option (Fin g.size) :=
  (List.finRange g.size).find? fun i ↦ m.isTarget (g.layer i) && (t.get i).formats.result.isNone

def formatsOf (t : Typing g) (i : Fin g.size) : LayerFormats :=
  if m.isTarget (g.layer i) then (t.get i).withResult ((t.get i).formats.result.map m.adjust) else t.get i

/-- Adjusts all targets, or none if one of them has no result format; also tells how many changed. -/
def apply (t : Typing g) : Except ResolveError (Typing g × Nat) :=
  match m.untypedTarget? g t with
  | some i => .error (.unresolved (g.layer i).name .result)
  | none =>
    let t' := Vector.ofFn (m.formatsOf g t)
    .ok (t', (List.finRange g.size).countP fun i ↦ t'.get i ≠ t.get i)

/-- Rewrites the result of one layer and counts it, if it is a target whose result has other modes. -/
def rewrite {n : Nat} (layer : Layer n) (s : Vector LayerFormats n × Nat) (i : Fin n) : Vector LayerFormats n × Nat :=
  if m.isTarget layer then
    (s.1.get i).formats.result.elim s fun f ↦
      if m.adjust f = f then s else (s.1.set i ((s.1.get i).withResult (some (m.adjust f))) i.isLt, s.2 + 1)
  else s

/-- Rewrites layer after layer in place, unless there is a target without a result format. -/
def run (t : Typing g) : Typing g × Except ResolveError Nat :=
  match m.untypedTarget? g t with
  | some i => (t, .error (.unresolved (g.layer i).name .result))
  | none =>
    let s := (List.finRange g.size).foldl (fun s i ↦ m.rewrite (g.layer i) s i) (t, 0)
    (s.1, .ok s.2)

end OutputModes

end FixedNet

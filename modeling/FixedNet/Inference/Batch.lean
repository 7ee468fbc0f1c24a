import FixedNet.Inference.Run

namespace FixedNet

structure Batch where
  rows : List (Except Fault (List Float))

/-- The index of the largest number, the first one of equals. -/
def argmax (xs : List Float) : Option Nat :=
  (xs.zipIdx.foldl
    (fun best p ↦
      match best with
      | some b => if p.1 ≤ b.1 then some b else some p
      | none => some p) (none : Option (Float × Nat))).map Prod.snd

namespace Batch

variable (b : Batch)

def values : Except Fault (List (List Float)) := b.rows.mapM id

def faults : List (Nat × Fault) :=
  b.rows.zipIdx.filterMap fun p ↦
    match p.1 with
    | .error f => some (p.2, f)
    | .ok _ => none

/-- The index of the largest output of each row that has one. -/
def argmaxes : List (Option Nat) := b.rows.map fun row ↦ row.toOption.bind argmax

end Batch

def Plan.predict (p : Plan) (rows : List (List Float)) : Batch := ⟨rows.map p.predictRow⟩

end FixedNet

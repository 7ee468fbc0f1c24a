import FixedNet.Inference.Batch

namespace FixedNet

structure Parity where
  rows : Nat
  faults : Nat
  maxDiff : Float
  meanDiff : Float
  /-- The share of compared entries that differ. -/
  mismatch : Float
  /-- The share of compared rows with the same largest output. -/
  agreement : Float

structure Tally where
  faults : Nat := 0
  maxDiff : Float := 0
  totalDiff : Float := 0
  mismatched : Nat := 0
  entries : Nat := 0
  agreeing : Nat := 0

namespace Tally

def addEntry (t : Tally) (p : Float × Float) : Tally :=
  let diff := (p.1 - p.2).abs
  { t with
    maxDiff := Binary64.maxNum t.maxDiff diff
    totalDiff := t.totalDiff + diff
    mismatched := t.mismatched + if 0 < diff then 1 else 0
    entries := t.entries + 1 }

def addRow (t : Tally) (p : Except Fault (List Float) × List Float) : Tally :=
  match p.1 with
  | .error _ => { t with faults := t.faults + 1 }
  | .ok values =>
    let t := (values.zip p.2).foldl addEntry t
    { t with agreeing := t.agreeing + if argmax values = argmax p.2 then 1 else 0 }

end Tally

def share (part whole : Nat) : Float :=
  if whole = 0 then 0 else Binary64.ofInt part / Binary64.ofInt whole

/-- Compares row by row as far as both go; faulted rows are counted and skipped. -/
def Batch.compare (b : Batch) (expected : List (List Float)) : Parity :=
  let t := (b.rows.zip expected).foldl Tally.addRow {}
  let rows := min b.rows.length expected.length
  { rows
    faults := t.faults
    maxDiff := t.maxDiff
    meanDiff := if t.entries = 0 then 0 else t.totalDiff / Binary64.ofInt t.entries
    mismatch := share t.mismatched t.entries
    agreement := share t.agreeing (rows - t.faults) }

def accuracy (predictions : List (Option Nat)) (labels : List Nat) : Float :=
  share ((predictions.zip labels).countP fun p ↦ p.1 = some p.2) labels.length

end FixedNet

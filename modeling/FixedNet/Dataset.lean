import FixedNet.Binary64.Basic

namespace FixedNet

/-- A generator of random numbers, which a seed starts. -/
structure Generator where
  State : Type
  ofSeed : UInt64 → State
  /-- From zero up to one. -/
  unit : StateM State Float
  /-- From the first bound up to the second one. -/
  between : Float → Float → StateM State Float
  /-- The second bound is among them. -/
  within : Float → Float → StateM State Float
  /-- Below a positive bound. -/
  below : Nat → StateM State Nat

def snapToGrid (x : Float) : Float := Binary64.roundWith .nearest (x * 1024) / 1024

structure Clusters where
  centers : List (List Float)
  inputs : List (List Float)
  labels : List Nat

variable (G : Generator)

namespace Clusters

def drawPoint (centers : List (List Float)) (spread : Float) : StateM G.State (Nat × List Float) := do
  let label ← G.below (max centers.length 1)
  let point ← (centers.getD label []).mapM fun c ↦ do return snapToGrid (c + (← G.within (-spread) spread))
  return (label, point)

def generate (classes features samples : Nat) (spread : Float) (seed : UInt64) : Clusters :=
  let spread := if spread.isFinite then spread.abs else 0
  let draw : StateM G.State Clusters := do
    let centers ← (List.range classes).mapM fun _ ↦
      (List.range features).mapM fun _ ↦ do return snapToGrid (← G.between (-1) 1)
    let points ← (List.range samples).mapM fun _ ↦ drawPoint G centers spread
    return ⟨centers, points.map Prod.snd, points.map Prod.fst⟩
  (draw.run (G.ofSeed seed)).1

end Clusters

def uniformRows (rows features : Nat) (seed : UInt64) : List (List Float) :=
  let draw : StateM G.State (List (List Float)) := (List.range rows).mapM fun _ ↦
    (List.range features).mapM fun _ ↦ do return snapToGrid (← G.unit)
  (draw.run (G.ofSeed seed)).1

end FixedNet

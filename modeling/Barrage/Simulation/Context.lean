import Barrage.Bullet.Basic

namespace Barrage

/-- Direction in degrees and speed of the last fire. -/
structure SequenceState where
  lastDirection : Float32
  lastSpeed : Float32

/-- How many bullets were fired, were not fired for want of room, and were recycled. -/
structure SpawnStats where
  fired : Nat
  dropped : Nat
  recycled : Nat
deriving DecidableEq, Repr

/-- What all tasks of a simulation share. -/
structure Context where
  sequence : SequenceState
  rank : Float32
  target : Point
  stats : SpawnStats
  random : Random

namespace Context

def ofSeed (seed : UInt64) (rank : Float32) : Context where
  sequence := ⟨0, 0⟩
  rank := Binary32.clampUnit rank
  target := .zero
  stats := ⟨0, 0, 0⟩
  random := .ofSeed seed

/-- What an expression of a task with `params` reads on a bullet. -/
def scope (c : Context) (params : List Float32) (b : Bullet) : Scope :=
  ⟨params, c.rank, b.degrees, b.speed⟩

def countFired (c : Context) : Context :=
  { c with stats := { c.stats with fired := c.stats.fired + 1 } }

def countDropped (c : Context) : Context :=
  { c with stats := { c.stats with dropped := c.stats.dropped + 1 } }

def countRecycled (c : Context) : Context :=
  { c with stats := { c.stats with recycled := c.stats.recycled + 1 } }

end Context

/-- The value of a node's expression, or zero if it has none. -/
def Pattern.evalNode (p : Pattern) (id : NodeId) (scope : Scope) (r : Random) : Float32 × Random :=
  match (p.node id).expr with
  | some e => e.eval scope r
  | none => (0, r)

def Pattern.evalNodes (p : Pattern) (scope : Scope) :
    List NodeId → Random → List Float32 × Random
  | [], r => ([], r)
  | id :: ids, r =>
    let (v, r) := p.evalNode id scope r
    let (vs, r) := p.evalNodes scope ids r
    (v :: vs, r)

end Barrage

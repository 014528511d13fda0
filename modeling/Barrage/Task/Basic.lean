import Barrage.Geometry
import Barrage.Handle
import Barrage.Pattern.Node

namespace Barrage

/-- What a task answers after a frame of work: done for good, still at work beside what follows it,
or holding up what follows it. -/
inductive Status where
  | ended
  | ongoing
  | paused
deriving DecidableEq, Repr

/-- The life of a task, which only moves forward. -/
inductive Phase where
  | parsed
  | running
  | finished
deriving DecidableEq, Repr

namespace Phase

def order : Phase → Nat
  | .parsed => 0
  | .running => 1
  | .finished => 2

def later (p q : Phase) : Phase := if p.order < q.order then q else p

end Phase

/-- A change that is applied once a frame for `term` frames. -/
structure Ramp (α : Type) where
  delta : α
  term : UInt32
  elapsed : UInt32

namespace Ramp

/-- A ramp over no frames at all still takes one. -/
def ofTerm {α : Type} (delta : α) (term : UInt32) : Ramp α :=
  ⟨delta, if term == 0 then 1 else term, 0⟩

def step {α : Type} (r : Ramp α) : Ramp α := { r with elapsed := r.elapsed + 1 }

def isDone {α : Type} (r : Ramp α) : Bool := r.term ≤ r.elapsed

end Ramp

/-- A `repeat`: its count is known once it has run, and `room` is left for binding its body. -/
structure RepeatState where
  times : Option UInt32
  done : UInt32
  room : Nat

/-- Where a fired bullet's direction or speed is written: on the fire, or on the bullet. -/
structure ValueSource where
  node : NodeId
  fromBullet : Bool
deriving DecidableEq, Repr

structure FireState where
  bullet : NodeId
  direction : Option ValueSource
  speed : Option ValueSource
deriving DecidableEq, Repr

/-- A change of direction or speed, with the nodes of its value and its term. -/
structure ChangeState where
  value : NodeId
  term : NodeId
  ramp : Option (Ramp Float32)

structure AccelState where
  horizontal : Option NodeId
  vertical : Option NodeId
  term : NodeId
  ramp : Option (Ramp Point)

inductive TaskKind where
  | action
  | bullet
  | repeat (state : RepeatState)
  | fire (state : FireState)
  | changeDirection (state : ChangeState)
  | changeSpeed (state : ChangeState)
  | accel (state : AccelState)
  | wait (remaining : Option UInt32)
  | vanish

/-- A node at work. A task owns its children; the owner it runs under is only remembered. -/
structure Task where
  node : NodeId
  owner : Option TaskId
  children : List TaskId
  params : List Float32
  kind : TaskKind
  phase : Phase

namespace Task

def ofNode (node : NodeId) (owner : Option TaskId) (params : List Float32) (kind : TaskKind) :
    Task where
  node
  owner
  children := []
  params
  kind
  phase := .parsed

def isFinished (t : Task) : Bool := t.phase == .finished

def advance (t : Task) (phase : Phase) : Task := { t with phase := t.phase.later phase }

def adopt (t : Task) (child : TaskId) : Task := { t with children := t.children ++ [child] }

end Task
end Barrage

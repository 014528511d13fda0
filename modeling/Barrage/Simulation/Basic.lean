import Barrage.Simulation.Run

namespace Barrage

/-- Bullets, their tasks and what they share. Bullets are culled once they are more than the margin
outside the `cull` rectangle. Notices stay until they are collected. -/
structure Simulation where
  pool : Pool
  tasks : Arena
  context : Context
  cull : Option Bounds
  cullMargin : Float32
  frame : Nat
  notices : Array Notice

namespace Simulation

def init (capacity : Nat) (seed : UInt64) (rank : Float32) (cull : Option Bounds)
    (cullMargin : Float32) : Simulation where
  pool := .ofCapacity capacity
  tasks := .empty
  context := .ofSeed seed rank
  cull
  cullMargin
  frame := 0
  notices := #[]

def size (s : Simulation) : Nat := s.pool.size

def get? (s : Simulation) (id : BulletId) : Option Bullet := s.pool.get? id

def bullets (s : Simulation) : List Bullet := s.pool.bullets

def modifyBullet (s : Simulation) (id : BulletId) (f : Bullet → Bullet) : Simulation :=
  { s with pool := s.pool.modify id f }

/-- A new bullet without a pattern, unless the pool is full. -/
def create (s : Simulation) (pos : Point) (direction speed : Float32) :
    Option BulletId × Simulation :=
  match s.pool.create with
  | (none, pool) => (none, { s with pool })
  | (some id, pool) =>
    (some id, { s with pool := pool.modify id fun b => { b with pos, direction, speed } })

/-- Binds the top actions of a pattern for a bullet taken from the pool and puts it into play; on
failure, gives its slot back. -/
def activate (s : Simulation) (p : Pattern) (emitter : Bullet) :
    Except PatternError (Option BulletId) × Simulation :=
  let binder : Binder := ⟨p, s.context.rank, emitter⟩
  match binder.bindRoots none [] p.topActions [] ⟨s.tasks, s.context.random⟩ with
  | .ok roots ⟨tasks, random⟩ =>
    (.ok (some emitter.id), { s with
      pool := s.pool.place { emitter with tasks := roots }
      tasks
      context := { s.context with random } })
  | .error e ⟨tasks, random⟩ =>
    (.error e, { s with
      pool := (s.pool.remove emitter.id).2
      tasks
      context := { s.context with random }
      notices := s.notices.push (.activationFailed p.name e) })

/-- Starts a pattern on a new bullet, unless the pool is full. All its top actions become roots of
the bullet. -/
def spawn (s : Simulation) (p : Pattern) (pos : Point) :
    Except PatternError (Option BulletId) × Simulation :=
  if p.topActions.isEmpty then (.error (.noTopAction p.name), s)
  else
    match s.pool.create with
    | (none, pool) => (.ok none, { s with pool, context := s.context.countDropped })
    | (some id, pool) =>
      let emitter := { Bullet.atRest id with pos, pattern := some p }
      activate { s with pool := (pool.take id).2 } p emitter

/-- Recycles a bullet with all its tasks, and answers whether it was there. -/
def vanish (s : Simulation) (id : BulletId) : Bool × Simulation :=
  match s.pool.remove id with
  | (none, pool) => (false, { s with pool })
  | (some b, pool) =>
    (true, { s with
      pool
      tasks := s.tasks.releaseAll b.tasks
      context := s.context.countRecycled })

def vanishAll (s : Simulation) (ids : List BulletId) : Simulation :=
  ids.foldl (fun s id => (s.vanish id).2) s

def clear (s : Simulation) : Simulation := s.vanishAll s.pool.order.toList

def evict : Nat → Simulation → Simulation
  | 0, s => s
  | excess + 1, s =>
    match s.pool.idAt? 0 with
    | some id => evict excess (s.vanish id).2
    | none => s

/-- Changes the capacity and recycles the oldest bullets beyond it. -/
def setCapacity (s : Simulation) (capacity : Nat) : Simulation :=
  evict (s.size - capacity) { s with pool := s.pool.setCapacity capacity }

def setRank (s : Simulation) (rank : Float32) : Simulation :=
  { s with context := { s.context with rank := Binary32.clampUnit rank } }

def setTarget (s : Simulation) (target : Point) : Simulation :=
  { s with context := { s.context with target } }

/-- The notices since they were last collected. -/
def collectNotices (s : Simulation) : Array Notice × Simulation :=
  (s.notices, { s with notices := #[] })

end Simulation
end Barrage

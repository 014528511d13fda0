import Barrage.Simulation.Basic

namespace Barrage

/-- Speeds are in pixels per frame at this rate. -/
def referenceFps : Float32 := 60

/-- The length of a reference frame in seconds. -/
def frameTime : Float32 := 1 / referenceFps

namespace Simulation

/-- Whether a bullet has left the rectangle outside which bullets are culled. -/
def isOutside (s : Simulation) (b : Bullet) : Bool :=
  match s.cull with
  | some bounds => !bounds.contains b.pos s.cullMargin
  | none => false

/-- Moves a bullet that was taken from the pool, marks it if it is outside, and puts it back. -/
def settle (s : Simulation) (scale : Float32) (b : Bullet) : Simulation :=
  let b := b.move scale
  let b := if s.isOutside b then b.vanish else b
  { s with pool := s.pool.place b }

def runTasks (s : Simulation) (b : Bullet) : Bullet × Simulation :=
  let t := Turn.runTasks ⟨b, s.tasks, s.pool, s.context, s.notices⟩
  (t.bullet, { s with
    pool := t.pool
    tasks := t.tasks
    context := t.context
    notices := t.notices })

/-- One frame of one bullet: its tasks, unless it has vanished, and then its flight. -/
def tick (s : Simulation) (scale : Float32) (id : BulletId) : Simulation :=
  match s.pool.take id with
  | (none, pool) => { s with pool }
  | (some b, pool) =>
    let s := { s with pool }
    if b.vanished then s.settle scale b
    else
      let (b, s) := s.runTasks b
      s.settle scale b

/-- Ticks the bullets from the `i`-th on in the order of creation, at most `count` of them. -/
def tickFrom (scale : Float32) : (count i : Nat) → Simulation → Simulation
  | 0, _, s => s
  | count + 1, i, s =>
    match s.pool.idAt? i with
    | none => s
    | some id => tickFrom scale count (i + 1) (s.tick scale id)

def sweep (s : Simulation) : Simulation :=
  s.vanishAll ((s.bullets.filter Bullet.vanished).map Bullet.id)

/-- One frame of `dt` seconds. Bullets that are fired in it are ticked from the next one on. -/
def update (s : Simulation) (dt : Float32) : Simulation :=
  sweep (tickFrom (dt * referenceFps) s.size 0 { s with frame := s.frame + 1 })

end Simulation
end Barrage

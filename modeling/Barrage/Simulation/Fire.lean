import Barrage.Simulation.Turn

namespace Barrage.Turn

def reserve : Run (Option BulletId) :=
  modifyGet fun t =>
    let (id, pool) := t.pool.create
    (id, { t with pool })

/-- Gives the slot of a new bullet back if a step fails. -/
def orDiscard {α : Type} (id : BulletId) (step : Run α) : Run α := fun t =>
  match step t with
  | .ok a t => .ok a t
  | .error e t => .error e { t with pool := (t.pool.remove id).2 }

/-- A value of a fire, with the parameters of the place where it is written. -/
def evalSource (p : Pattern) (fireParams bulletParams : List Float32) :
    Option ValueSource → Run (Option Float32)
  | none => pure none
  | some source =>
    some <$> eval p source.node (if source.fromBullet then bulletParams else fireParams)

def sourceMode (p : Pattern) (source : Option ValueSource) : Option Mode :=
  source.bind fun s => p.mode s.node

/-- The actions of a bullet, which become the roots of each bullet fired from it. -/
def shotActions (p : Pattern) (bullet : NodeId) : List NodeId :=
  (p.children bullet).filter fun c => p.element c == .action || p.element c == .actionRef

/-- What the values of a fire combine with at this moment. -/
def fireInputs : Run FireInputs := do
  let t ← get
  pure ⟨t.bullet.degrees, t.bullet.speed, Angle.aim t.bullet.pos t.context.target,
    t.context.sequence⟩

/-- A bullet that starts where the running one is. -/
def newShot (id : BulletId) (direction speed : Float32) : Run Bullet := do
  let t ← get
  pure { Bullet.atRest id with
    pos := t.bullet.pos
    direction := Angle.toRadians direction
    speed
    pattern := t.bullet.pattern }

/-- Puts a bullet into play with its roots bound, which run under the fire. -/
def launch (p : Pattern) (fire held : TaskId) (bullet : NodeId) (params : List Float32)
    (shot : Bullet) : Run Unit := do
  let roots ← orDiscard shot.id <|
    bindFor p shot fun b => b.bindRoots (some held) params (shotActions p bullet) []
  roots.forM fun root => modifyTask root fun task => { task with owner := some fire }
  modify fun t => { t with pool := t.pool.place { shot with tasks := roots } }

/-- Fires one bullet. A full pool drops it, and the fire ends all the same. -/
def runFire (p : Pattern) (id : TaskId) (task : Task) (fire : FireState) : Run Status := do
  match task.children with
  | [] => throw (.staleTask id)
  | held :: _ =>
    let bulletParams := (← Turn.task held).params
    match ← reserve with
    | none => modifyContext Context.countDropped
    | some shotId =>
      let directionValue ← evalSource p task.params bulletParams fire.direction
      let speedValue ← evalSource p task.params bulletParams fire.speed
      let inputs ← fireInputs
      let direction := inputs.resolveDirection (sourceMode p fire.direction) directionValue
      let speed := inputs.resolveSpeed (sourceMode p fire.speed) speedValue
      let shot ← newShot shotId direction speed
      launch p id held fire.bullet bulletParams shot
      modifyContext fun c => { c with sequence := ⟨direction, speed⟩ }.countFired
    pure .ended

end Barrage.Turn

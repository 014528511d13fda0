import Barrage.Simulation.Fire

namespace Barrage.Turn

/-- Counts down frames, from the number that is found on the first of them. -/
def runWait (p : Pattern) (id : TaskId) (task : Task) (remaining : Option UInt32) :
    Run Status := do
  let remaining ← match remaining with
    | some n => pure n
    | none => Binary32.toCount <$> eval p task.node task.params
  if remaining == 0 then
    setKind id (.wait (some 0))
    pure .ended
  else
    setKind id (.wait (some (remaining - 1)))
    pure .paused

def rampStatus {α : Type} (r : Ramp α) : Status := if r.isDone then .ended else .ongoing

def runChangeDirection (p : Pattern) (id : TaskId) (task : Task) (change : ChangeState) :
    Run Status := do
  let ramp ← match change.ramp with
    | some ramp => pure ramp
    | none =>
      let value ← eval p change.value task.params
      let term := Binary32.toCount (← eval p change.term task.params)
      let t ← get
      let aim := Angle.aim t.bullet.pos t.context.target
      pure (.ofTerm (directionRamp (p.mode change.value) value t.bullet.degrees aim term) term)
  let ramp := ramp.step
  setKind id (.changeDirection { change with ramp := some ramp })
  modifyBullet fun b => { b with direction := b.direction + Angle.toRadians ramp.delta }
  pure (rampStatus ramp)

def runChangeSpeed (p : Pattern) (id : TaskId) (task : Task) (change : ChangeState) :
    Run Status := do
  let ramp ← match change.ramp with
    | some ramp => pure ramp
    | none =>
      let value ← eval p change.value task.params
      let term := Binary32.toCount (← eval p change.term task.params)
      let t ← get
      pure (.ofTerm (linearRamp (p.mode change.value) value t.bullet.speed term) term)
  let ramp := ramp.step
  setKind id (.changeSpeed { change with ramp := some ramp })
  modifyBullet fun b => { b with speed := b.speed + ramp.delta }
  pure (rampStatus ramp)

/-- The change along one axis, none where the axis is not mentioned. -/
def axisRamp (p : Pattern) (params : List Float32) (current : Float32) (term : UInt32) :
    Option NodeId → Run Float32
  | none => pure 0
  | some node => do
    let value ← eval p node params
    pure (linearRamp (p.mode node) value current term)

def runAccel (p : Pattern) (id : TaskId) (task : Task) (accel : AccelState) : Run Status := do
  let ramp ← match accel.ramp with
    | some ramp => pure ramp
    | none =>
      let current := (← get).bullet.extraVelocity
      let term := Binary32.toCount (← eval p accel.term task.params)
      let x ← axisRamp p task.params current.x term accel.horizontal
      let y ← axisRamp p task.params current.y term accel.vertical
      pure (.ofTerm ⟨x, y⟩ term)
  let ramp := ramp.step
  setKind id (.accel { accel with ramp := some ramp })
  modifyBullet fun b => { b with extraVelocity := b.extraVelocity + ramp.delta }
  pure (rampStatus ramp)

/-- Runs the unfinished tasks of a list in order, up to one that pauses or the end of the bullet.
The answer starts from `status` and is `ongoing` once a task was. -/
def runSequence (run : TaskId → Run Status) : List TaskId → Status → Run Status
  | [], status => pure status
  | id :: ids, status => do
    if (← get).tasks.isFinished id then runSequence run ids status
    else
      match ← run id with
      | .paused => pure .paused
      | .ongoing => if ← isVanished then pure .ended else runSequence run ids .ongoing
      | .ended => if ← isVanished then pure .ended else runSequence run ids status

/-- How often a `repeat` runs its body, found when it first runs. -/
def repeatTimes (p : Pattern) (id : TaskId) (task : Task) (state : RepeatState) : Run UInt32 :=
  match state.times with
  | some times => pure times
  | none => do
    let wanted ← match p.child? task.node .times with
      | some node => Binary32.toCount <$> eval p node task.params
      | none => pure 0
    let times := if maxRepeat < wanted then maxRepeat else wanted
    if maxRepeat < wanted then notify (.repeatClamped p.name task.node wanted maxRepeat)
    setKind id (.repeat { state with times := some times })
    pure times

/-- Lets go of the body that has ended, and counts it. -/
def finishBody (id body : TaskId) : Run Task := do
  release body
  let task ← task id
  let kind := match task.kind with
    | .repeat state => .repeat { state with done := state.done + 1 }
    | kind => kind
  let task := { task with children := [], kind }
  modifyTask id fun _ => task
  pure task

/-- Runs up to `left` more bodies of a `repeat`, each bound when the one before it has ended. -/
def runBodies (p : Pattern) (run : TaskId → Run Status) (room : Nat) (id : TaskId) :
    Nat → Run Status
  | 0 => do
    let task ← task id
    task.children.head?.forM release
    pure .ended
  | left + 1 => do
    match (← task id).children with
    | [] => pure .ended
    | body :: _ =>
      match ← run body with
      | .ended =>
        let task ← finishBody id body
        if left == 0 || (← isVanished) then pure .ended
        else
          let bullet := (← get).bullet
          let fresh ← bindFor p bullet fun b =>
            b.bindBody (b.bindNode room) task.node id task.params
          modifyTask id (·.adopt fresh)
          runBodies p run room id left
      | status => pure status

def runRepeat (p : Pattern) (run : TaskId → Run Status) (id : TaskId) (task : Task)
    (state : RepeatState) : Run Status := do
  let times ← repeatTimes p id task state
  runBodies p run state.room id (times.toNat - state.done.toNat)

/-- One frame of work of an unfinished task whose children are run by `run`. -/
def runKind (p : Pattern) (run : TaskId → Run Status) (id : TaskId) (task : Task) : Run Status :=
  match task.kind with
  | .action | .bullet => runSequence run task.children .ended
  | .repeat state => runRepeat p run id task state
  | .fire state => runFire p id task state
  | .changeDirection state => runChangeDirection p id task state
  | .changeSpeed state => runChangeSpeed p id task state
  | .accel state => runAccel p id task state
  | .wait remaining => runWait p id task remaining
  | .vanish => do
    modifyBullet Bullet.vanish
    pure .ended

/-- One frame of work of a task. The fuel bounds how far below it its children reach; no chain of
tasks is longer than `maxTaskChain`. -/
def runTask (p : Pattern) : Nat → TaskId → Run Status
  | 0, _ => throw (.recursionLimit maxNestDepth)
  | fuel + 1, id => do
    let task ← task id
    if task.isFinished then pure .ended
    else
      modifyTask id (·.advance .running)
      let status ← runKind p (runTask p fuel) id task
      if status == .ended then modifyTask id (·.advance .finished)
      pure status

/-- Runs the roots of the bullet in order and drops those that end. The first fault ends them all.
The roots in `kept` have run already. -/
def runRoots (p : Pattern) (kept : List TaskId) : List TaskId → Turn → Turn
  | [], t => t
  | root :: rest, t =>
    match runTask p maxTaskChain root t with
    | .error e t =>
      { t with
        tasks := t.tasks.releaseAll (kept ++ root :: rest)
        bullet := { t.bullet with tasks := [] }
        notices := t.notices.push (.bulletStopped p.name t.bullet.id e) }
    | .ok .ended t =>
      let t := { t with
        tasks := (t.tasks.release root).2
        bullet := { t.bullet with tasks := kept ++ rest } }
      if t.bullet.vanished then t else runRoots p kept rest t
    | .ok _ t => if t.bullet.vanished then t else runRoots p (kept ++ [root]) rest t

/-- One frame of the bullet's tasks; a bullet without a pattern has none to run. -/
def runTasks (t : Turn) : Turn :=
  match t.bullet.pattern with
  | some p => runRoots p [] t.bullet.tasks t
  | none => t

end Barrage.Turn

import Barrage.Proofs.Trace

namespace Barrage

/-- What can be seen of a bullet. -/
structure Motion where
  pos : Point
  direction : Float32
  speed : Float32
  extraVelocity : Point
  age : Nat
  vanished : Bool

def Bullet.motion (b : Bullet) : Motion :=
  ⟨b.pos, b.direction, b.speed, b.extraVelocity, b.age, b.vanished⟩

namespace Motion

/-- A bullet in this motion that has neither a handle nor tasks of its own. -/
def bullet (m : Motion) : Bullet :=
  { Bullet.atRest ⟨0, 0⟩ with
    pos := m.pos
    direction := m.direction
    speed := m.speed
    extraVelocity := m.extraVelocity
    age := m.age
    vanished := m.vanished }

/-- The motion of a bullet that was just put at `pos`. -/
def rest (pos : Point) : Motion where
  pos
  direction := 0
  speed := 0
  extraVelocity := .zero
  age := 0
  vanished := false

/-- The motion of a bullet that leaves at `pos`. -/
def launch (pos : Point) (direction speed : Float32) : Motion where
  pos
  direction := Angle.toRadians direction
  speed
  extraVelocity := .zero
  age := 0
  vanished := false

end Motion

/-- What a binder expands depends on its bullet only by what can be seen of it. -/
theorem Binder.expandNode_motion (p : Pattern) (rank : Float32) (b : Bullet) (room : Nat) :
    (⟨p, rank, b⟩ : Binder).expandNode room =
      (⟨p, rank, b.motion.bullet⟩ : Binder).expandNode room := by
  induction room using Nat.twoStepInduction with
  | zero => rfl
  | one => rfl
  | more room ih ih' =>
    rw [expandNode, expandNode, ih, ih']
    rfl

/-- A tree of tasks at work, without their places in an arena. -/
inductive WorkTree where
  | node (node : NodeId) (params : List Float32) (kind : TaskKind) (phase : Phase)
      (children : List WorkTree)

mutual

/-- A tree none of whose tasks has run. -/
def TaskTree.fresh : TaskTree → WorkTree
  | .node n params kind children => .node n params kind .parsed (TaskTree.freshAll children)

def TaskTree.freshAll : List TaskTree → List WorkTree
  | [] => []
  | tree :: trees => tree.fresh :: TaskTree.freshAll trees

end

def WorkTree.isFinished : WorkTree → Bool
  | .node _ _ _ phase _ => phase == .finished

/-- A bullet that plays: its motion, and its tasks. -/
structure Actor where
  motion : Motion
  roots : List WorkTree

/-- How many more bullets there is a place for, and how many were given one in vain, since they could
not be bound. -/
structure Room where
  places : Nat
  misses : Nat

namespace Room

def take (r : Room) : Room := { r with places := r.places - 1 }

def miss (r : Room) : Room := { r with misses := r.misses + 1 }

end Room

/-- What the tasks of one bullet can touch while they play: the room that is left for bullets, and
those that were fired so far. -/
structure Stage where
  motion : Motion
  context : Context
  room : Room
  cast : List Actor

/-- Steps of playing trees of tasks; what changed before a fault stays. -/
abbrev Play := EStateM PatternError Stage

namespace Play

def isVanished : Play Bool := return (← get).motion.vanished

def modifyMotion (f : Motion → Motion) : Play Unit :=
  modify fun σ => { σ with motion := f σ.motion }

def eval (p : Pattern) (node : NodeId) (params : List Float32) : Play Float32 :=
  modifyGet fun σ =>
    let (v, random) := p.evalNode node (σ.context.scope params σ.motion.bullet) σ.context.random
    (v, { σ with context := { σ.context with random } })

/-- Expands tasks for a bullet in a motion, which need not be that of the playing one. -/
def expandFor {α : Type} (p : Pattern) (m : Motion) (step : Binder → Expansion α) : Play α :=
  fun σ =>
    match step ⟨p, σ.context.rank, m.bullet⟩ σ.context.random with
    | .ok a random => .ok a { σ with context := { σ.context with random } }
    | .error e random => .error e { σ with context := { σ.context with random } }

/-- Notes that the place of a bullet was taken in vain if a step fails. -/
def orMiss {α : Type} (step : Play α) : Play α := fun σ =>
  match step σ with
  | .ok a σ => .ok a σ
  | .error e σ => .error e { σ with room := σ.room.miss }

section Expand

variable {α : Type} {p : Pattern} {m : Motion} {step : Binder → Expansion α} {σ : Stage} {a : α}
  {r : Random} {e : PatternError}

theorem expandFor_of_ok (h : step ⟨p, σ.context.rank, m.bullet⟩ σ.context.random = .ok a r) :
    expandFor p m step σ = .ok a { σ with context := { σ.context with random := r } } := by
  simp only [expandFor, h]

theorem expandFor_of_error
    (h : step ⟨p, σ.context.rank, m.bullet⟩ σ.context.random = .error e r) :
    expandFor p m step σ = .error e { σ with context := { σ.context with random := r } } := by
  simp only [expandFor, h]

variable {x : Play α} {σ' : Stage}

theorem orMiss_of_ok (h : x σ = .ok a σ') : orMiss x σ = .ok a σ' := by
  simp only [orMiss, h]

theorem orMiss_of_error (h : x σ = .error e σ') :
    orMiss x σ = .error e { σ' with room := σ'.room.miss } := by
  simp only [orMiss, h]

end Expand

section Leaf

variable (p : Pattern) (node : NodeId) (params : List Float32)

def wait (remaining : Option UInt32) : Play (Status × TaskKind) := do
  let remaining ← match remaining with
    | some n => pure n
    | none => Binary32.toCount <$> eval p node params
  if remaining == 0 then pure (.ended, .wait (some 0))
  else pure (.paused, .wait (some (remaining - 1)))

def changeDirection (change : ChangeState) : Play (Status × TaskKind) := do
  let ramp ← match change.ramp with
    | some ramp => pure ramp
    | none =>
      let value ← eval p change.value params
      let term := Binary32.toCount (← eval p change.term params)
      let σ ← get
      let aim := Angle.aim σ.motion.pos σ.context.target
      pure (.ofTerm
        (directionRamp (p.mode change.value) value σ.motion.bullet.degrees aim term) term)
  let ramp := ramp.step
  modifyMotion fun m => { m with direction := m.direction + Angle.toRadians ramp.delta }
  pure (Turn.rampStatus ramp, .changeDirection { change with ramp := some ramp })

def changeSpeed (change : ChangeState) : Play (Status × TaskKind) := do
  let ramp ← match change.ramp with
    | some ramp => pure ramp
    | none =>
      let value ← eval p change.value params
      let term := Binary32.toCount (← eval p change.term params)
      let σ ← get
      pure (.ofTerm (linearRamp (p.mode change.value) value σ.motion.speed term) term)
  let ramp := ramp.step
  modifyMotion fun m => { m with speed := m.speed + ramp.delta }
  pure (Turn.rampStatus ramp, .changeSpeed { change with ramp := some ramp })

def axisRamp (current : Float32) (term : UInt32) : Option NodeId → Play Float32
  | none => pure 0
  | some node => do
    let value ← eval p node params
    pure (linearRamp (p.mode node) value current term)

def accel (accel : AccelState) : Play (Status × TaskKind) := do
  let ramp ← match accel.ramp with
    | some ramp => pure ramp
    | none =>
      let current := (← get).motion.extraVelocity
      let term := Binary32.toCount (← eval p accel.term params)
      let x ← axisRamp p params current.x term accel.horizontal
      let y ← axisRamp p params current.y term accel.vertical
      pure (.ofTerm ⟨x, y⟩ term)
  let ramp := ramp.step
  modifyMotion fun m => { m with extraVelocity := m.extraVelocity + ramp.delta }
  pure (Turn.rampStatus ramp, .accel { accel with ramp := some ramp })

end Leaf

section Fire

variable (p : Pattern)

def evalSource (fireParams bulletParams : List Float32) :
    Option ValueSource → Play (Option Float32)
  | none => pure none
  | some source =>
    some <$> eval p source.node (if source.fromBullet then bulletParams else fireParams)

/-- The direction in degrees and the speed that a fire gives its bullet. -/
def resolve (fireParams bulletParams : List Float32) (fire : FireState) : Play SequenceState := do
  let directionValue ← evalSource p fireParams bulletParams fire.direction
  let speedValue ← evalSource p fireParams bulletParams fire.speed
  let σ ← get
  let inputs : FireInputs := ⟨σ.motion.bullet.degrees, σ.motion.speed,
    Angle.aim σ.motion.pos σ.context.target, σ.context.sequence⟩
  pure ⟨inputs.resolveDirection (Turn.sourceMode p fire.direction) directionValue,
    inputs.resolveSpeed (Turn.sourceMode p fire.speed) speedValue⟩

/-- A bullet joins the cast with its tasks expanded. -/
def shoot (bullet : NodeId) (params : List Float32) (q : SequenceState) : Play Unit := do
  let motion := Motion.launch (← get).motion.pos q.lastDirection q.lastSpeed
  let trees ← orMiss <| expandFor p motion fun b =>
    Binder.expandChildren (b.expandNode (maxNestDepth + 1)) params (Turn.shotActions p bullet)
  modify fun σ => { σ with
    room := σ.room.take
    context := { σ.context with sequence := q }.countFired
    cast := σ.cast ++ [⟨motion, TaskTree.freshAll trees⟩] }

/-- Fires one bullet; one for which there is no room is dropped. -/
def fire (params : List Float32) (fire : FireState) : List WorkTree → Play Unit
  | [] => pure ()
  | .node _ bulletParams _ _ _ :: _ => do
    if (← get).room.places == 0 then
      modify fun σ => { σ with context := σ.context.countDropped }
    else
      let q ← resolve p params bulletParams fire
      shoot p fire.bullet bulletParams q

variable {p} {params bulletParams : List Float32} {state : FireState} {n : NodeId}
  {kind : TaskKind} {phase : Phase} {below ws : List WorkTree} {σ : Stage}

theorem fire_of_room (hr : σ.room.places ≠ 0) :
    fire p params state (.node n bulletParams kind phase below :: ws) σ =
      (resolve p params bulletParams state >>= shoot p state.bullet bulletParams) σ := by
  have hget : (get : Play Stage) σ = .ok σ σ := rfl
  rw [fire, bind_of_ok hget, if_neg (by simpa using hr)]

theorem fire_of_full (hr : σ.room.places = 0) :
    fire p params state (.node n bulletParams kind phase below :: ws) σ =
      .ok () { σ with context := σ.context.countDropped } := by
  have hget : (get : Play Stage) σ = .ok σ σ := rfl
  rw [fire, bind_of_ok hget, if_pos (by simpa using hr)]
  rfl

end Fire

/-- Plays the unfinished trees of a list in order, up to one that pauses or the end of the
bullet. -/
def sequence (play : WorkTree → Play (Status × WorkTree)) :
    List WorkTree → Status → Play (Status × List WorkTree)
  | [], status => pure (status, [])
  | w :: ws, status =>
    if w.isFinished then do
      let (status, ws) ← sequence play ws status
      pure (status, w :: ws)
    else do
      let (answer, w) ← play w
      if answer == .paused then pure (.paused, w :: ws)
      else if ← isVanished then pure (.ended, w :: ws)
      else
        let (status, ws) ← sequence play ws (answer.after status)
        pure (status, w :: ws)

section Sequence

variable {play : WorkTree → Play (Status × WorkTree)} {w w' : WorkTree} {ws : List WorkTree}
  {status answer : Status} {σ σ' : Stage} {e : PatternError}

theorem sequence_of_finished (hf : w.isFinished = true) :
    sequence play (w :: ws) status = (do
      let (status, ws) ← sequence play ws status
      pure (status, w :: ws)) := by
  rw [sequence, if_pos hf]

theorem sequence_of_error (hf : w.isFinished = false) (hp : play w σ = .error e σ') :
    sequence play (w :: ws) status σ = .error e σ' := by
  rw [sequence, if_neg (by simp [hf]), bind_of_error hp]

theorem sequence_of_paused (hf : w.isFinished = false) (hp : play w σ = .ok (.paused, w') σ') :
    sequence play (w :: ws) status σ = .ok (.paused, w' :: ws) σ' := by
  rw [sequence, if_neg (by simp [hf]), bind_of_ok hp]
  rfl

theorem sequence_of_vanished (hf : w.isFinished = false) (hp : play w σ = .ok (answer, w') σ')
    (ha : answer ≠ .paused) (hv : σ'.motion.vanished = true) :
    sequence play (w :: ws) status σ = .ok (.ended, w' :: ws) σ' := by
  have vanished : isVanished σ' = .ok true σ' := congrArg (EStateM.Result.ok · σ') hv
  rw [sequence, if_neg (by simp [hf]), bind_of_ok hp]
  simp only [beq_iff_eq, ha, if_false]
  rw [bind_of_ok vanished]
  rfl

theorem sequence_of_next (hf : w.isFinished = false) (hp : play w σ = .ok (answer, w') σ')
    (ha : answer ≠ .paused) (hv : σ'.motion.vanished = false) :
    sequence play (w :: ws) status σ = (do
      let (status, ws) ← sequence play ws (answer.after status)
      pure (status, w' :: ws) : Play (Status × List WorkTree)) σ' := by
  have vanished : isVanished σ' = .ok false σ' := congrArg (EStateM.Result.ok · σ') hv
  rw [sequence, if_neg (by simp [hf]), bind_of_ok hp]
  simp only [beq_iff_eq, ha, if_false]
  rw [bind_of_ok vanished]
  rfl

end Sequence

section Repeat

variable (p : Pattern) (node : NodeId) (params : List Float32)

/-- How often a `repeat` plays its body. -/
def times (state : RepeatState) : Play UInt32 :=
  match state.times with
  | some times => pure times
  | none => do
    let wanted ← match p.child? node .times with
      | some node => Binary32.toCount <$> eval p node params
      | none => pure 0
    pure (if maxRepeat < wanted then maxRepeat else wanted)

/-- Plays up to `left` more bodies of a `repeat`, each expanded when the one before it has ended.
The answer has the number of bodies that have ended and the body that is left. -/
def bodies (play : WorkTree → Play (Status × WorkTree)) (room : Nat) :
    (left : Nat) → (done : UInt32) → List WorkTree → Play (Status × UInt32 × List WorkTree)
  | 0, done, _ => pure (.ended, done, [])
  | _ + 1, done, [] => pure (.ended, done, [])
  | left + 1, done, body :: _ => do
    let (answer, body) ← play body
    if answer == .ended then
      if left == 0 || (← isVanished) then pure (.ended, done + 1, [])
      else
        let fresh ← expandFor p (← get).motion fun b =>
          b.expandBody (b.expandNode room) node params
        bodies play room left (done + 1) [fresh.fresh]
    else pure (answer, done, [body])

variable {p node params} {play : WorkTree → Play (Status × WorkTree)} {room left : Nat}
  {done : UInt32} {w w' : WorkTree} {ws : List WorkTree} {answer : Status} {σ σ' : Stage}
  {e : PatternError}

theorem bodies_of_error (hp : play w σ = .error e σ') :
    bodies p node params play room (left + 1) done (w :: ws) σ = .error e σ' := by
  rw [bodies, bind_of_error hp]

theorem bodies_of_hold (hp : play w σ = .ok (answer, w') σ') (ha : answer ≠ .ended) :
    bodies p node params play room (left + 1) done (w :: ws) σ =
      .ok (answer, done, [w']) σ' := by
  rw [bodies, bind_of_ok hp]
  simp only [beq_iff_eq, ha, if_false]
  rfl

theorem bodies_of_last (hp : play w σ = .ok (.ended, w') σ')
    (hl : left = 0 ∨ σ'.motion.vanished = true) :
    bodies p node params play room (left + 1) done (w :: ws) σ =
      .ok (.ended, done + 1, []) σ' := by
  have vanished : isVanished σ' = .ok σ'.motion.vanished σ' := rfl
  rw [bodies, bind_of_ok hp]
  simp only [beq_self_eq_true, if_true]
  rw [bind_of_ok vanished, if_pos (by simpa using hl)]
  rfl

/-- A body is due and expanded, or it cannot be. -/
theorem bodies_of_due (hp : play w σ = .ok (.ended, w') σ')
    (hl : ¬(left = 0 ∨ σ'.motion.vanished = true)) :
    bodies p node params play room (left + 1) done (w :: ws) σ =
      match expandFor p σ'.motion (fun b => b.expandBody (b.expandNode room) node params) σ' with
      | .error e σ' => .error e σ'
      | .ok tree σ' => bodies p node params play room left (done + 1) [tree.fresh] σ' := by
  have vanished : isVanished σ' = .ok σ'.motion.vanished σ' := rfl
  have hget : (get : Play Stage) σ' = .ok σ' σ' := rfl
  rw [bodies, bind_of_ok hp]
  simp only [beq_self_eq_true, if_true]
  rw [bind_of_ok vanished, if_neg (by simpa using hl), bind_of_ok hget]
  cases hx : expandFor p σ'.motion (fun b => b.expandBody (b.expandNode room) node params) σ' with
  | error e σ' => rw [bind_of_error hx]
  | ok tree σ' => rw [bind_of_ok hx]

end Repeat

/-- One frame of an unfinished tree whose children are played by `play`. -/
def kind (p : Pattern) (play : WorkTree → Play (Status × WorkTree)) (node : NodeId)
    (params : List Float32) (children : List WorkTree) :
    TaskKind → Play (Status × TaskKind × List WorkTree)
  | .action => do
    let (status, children) ← sequence play children .ended
    pure (status, .action, children)
  | .bullet => do
    let (status, children) ← sequence play children .ended
    pure (status, .bullet, children)
  | .repeat state => do
    let times ← times p node params state
    let (status, done, children) ←
      bodies p node params play state.room (times.toNat - state.done.toNat) state.done children
    pure (status, .repeat { state with times := some times, done }, children)
  | .fire state => do
    fire p params state children
    pure (.ended, .fire state, children)
  | .changeDirection state => do
    let (status, kind) ← changeDirection p params state
    pure (status, kind, children)
  | .changeSpeed state => do
    let (status, kind) ← changeSpeed p params state
    pure (status, kind, children)
  | .accel state => do
    let (status, kind) ← accel p params state
    pure (status, kind, children)
  | .wait remaining => do
    let (status, kind) ← wait p node params remaining
    pure (status, kind, children)
  | .vanish => do
    modifyMotion fun m => { m with vanished := true }
    pure (.ended, .vanish, children)

/-- The phase of a task that was in `phase` and has answered. -/
def phase (phase : Phase) (answer : Status) : Phase :=
  if answer == .ended then (phase.later .running).later .finished else phase.later .running

/-- One frame of a tree, with fuel for the trees below it. -/
def tree (p : Pattern) : Nat → WorkTree → Play (Status × WorkTree)
  | 0, _ => throw (.recursionLimit maxNestDepth)
  | fuel + 1, .node n params k ph children =>
    if ph == .finished then pure (.ended, .node n params k ph children)
    else do
      let (status, k, children) ← kind p (tree p fuel) n params children k
      pure (status, .node n params k (phase ph status) children)

/-- What is left of the tree of a bullet that has answered. -/
def remains (status : Status) (w : WorkTree) : List WorkTree :=
  if status == .ended then [] else [w]

/-- Plays the trees of a bullet in order and drops those that end. -/
def roots (p : Pattern) : List WorkTree → Play (List WorkTree)
  | [] => pure []
  | w :: ws => do
    let (status, w) ← tree p maxTaskChain w
    if ← isVanished then pure (remains status w ++ ws)
    else
      let rest ← roots p ws
      pure (remains status w ++ rest)

section Roots

variable {p : Pattern} {w w' : WorkTree} {ws : List WorkTree} {status : Status} {σ σ' : Stage}
  {e : PatternError}

theorem roots_of_error (h : tree p maxTaskChain w σ = .error e σ') :
    roots p (w :: ws) σ = .error e σ' := by
  rw [roots, bind_of_error h]

theorem roots_of_vanished (h : tree p maxTaskChain w σ = .ok (status, w') σ')
    (hv : σ'.motion.vanished = true) :
    roots p (w :: ws) σ = .ok (remains status w' ++ ws) σ' := by
  have vanished : isVanished σ' = .ok true σ' := congrArg (EStateM.Result.ok · σ') hv
  rw [roots, bind_of_ok h]
  exact (bind_of_ok vanished).trans rfl

theorem roots_of_next (h : tree p maxTaskChain w σ = .ok (status, w') σ')
    (hv : σ'.motion.vanished = false) :
    roots p (w :: ws) σ = (do
      let rest ← roots p ws
      pure (remains status w' ++ rest) : Play (List WorkTree)) σ' := by
  have vanished : isVanished σ' = .ok false σ' := congrArg (EStateM.Result.ok · σ') hv
  rw [roots, bind_of_ok h]
  exact (bind_of_ok vanished).trans rfl

end Roots

end Play
end Barrage

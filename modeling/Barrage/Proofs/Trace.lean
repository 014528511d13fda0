import Barrage.Proofs.Binding
import Barrage.Proofs.Bound
import Barrage.Simulation.Run

namespace Barrage

/-- The status of a sequence in which a task has answered. -/
def Status.after (answer status : Status) : Status :=
  match answer with
  | .ongoing => .ongoing
  | _ => status

/-- One more body of a `repeat` has ended. -/
def Task.countBody (task : Task) : Task :=
  { task with
    children := []
    kind := match task.kind with
      | .repeat state => .repeat { state with done := state.done + 1 }
      | kind => kind }

/-- A count that is below another number can go up by one. -/
theorem toNat_next {m n : UInt32} (h : m < n) : (m + 1).toNat = m.toNat + 1 := by
  have hn := n.toNat_lt
  have hm := UInt32.lt_iff_toNat_lt.1 h
  rw [UInt32.toNat_add, UInt32.toNat_one]
  omega

namespace Turn

/-- The fire's bullet as it leaves: where the running one is, and without tasks yet. -/
def shot (t : Turn) (id : BulletId) (direction speed : Float32) : Bullet :=
  { Bullet.atRest id with
    pos := t.bullet.pos
    direction := Angle.toRadians direction
    speed
    pattern := t.bullet.pattern }

def own (fire : TaskId) (roots : List TaskId) (a : Arena) : Arena :=
  roots.foldl (fun a root => a.modify root fun task => { task with owner := some fire }) a

/-- The roots of a shot, bound under the task that the fire holds. -/
def bindShot (p : Pattern) (held : TaskId) (bullet : NodeId) (params : List Float32)
    (shot : Bullet) (rank : Float32) : Binding (List TaskId) :=
  (⟨p, rank, shot⟩ : Binder).bindRoots (some held) params (shotActions p bullet) []

/-- What one frame of a task without running children does. -/
inductive Acts (p : Pattern) (id : TaskId) (task : Task) (t : Turn) :
    Except PatternError Status → Turn → Prop where
  | steers {kind : TaskKind} {direction speed : Float32} {extraVelocity : Point}
      {random : Random} {status : Status} (hk : kind.shape = task.kind.shape)
      (hf : ∀ fire, task.kind ≠ .fire fire) :
      Acts p id task t (.ok status) { t with
        bullet := { t.bullet with direction, speed, extraVelocity }
        tasks := t.tasks.modify id fun task => { task with kind }
        context := { t.context with random } }
  | vanishes (hk : task.kind = .vanish) :
      Acts p id task t (.ok .ended) { t with bullet := t.bullet.vanish }
  | empty {fire : FireState} (hk : task.kind = .fire fire) (hc : task.children = []) :
      Acts p id task t (.error (.staleTask id)) t
  | unheld {fire : FireState} {held : TaskId} {rest : List TaskId} (hk : task.kind = .fire fire)
      (hc : task.children = held :: rest) (hh : t.tasks.get? held = none) :
      Acts p id task t (.error (.staleTask held)) t
  | drops {fire : FireState} {held : TaskId} {rest : List TaskId} {bullet : Task}
      (hk : task.kind = .fire fire) (hc : task.children = held :: rest)
      (hh : t.tasks.get? held = some bullet) (hp : t.pool.isFull = true) :
      Acts p id task t (.ok .ended) { t with context := t.context.countDropped }
  | misfires {fire : FireState} {held : TaskId} {rest : List TaskId} {bullet : Task}
      {shotId : BulletId} {pool : Pool} {direction speed : Float32} {e : PatternError}
      {tasks : Arena} {r random : Random}
      (hk : task.kind = .fire fire) (hc : task.children = held :: rest)
      (hh : t.tasks.get? held = some bullet) (hp : t.pool.create = (some shotId, pool))
      (hb : bindShot p held fire.bullet bullet.params (t.shot shotId direction speed)
        t.context.rank ⟨t.tasks, r⟩ = .error e ⟨tasks, random⟩) :
      Acts p id task t (.error e) { t with
        tasks
        pool := (pool.remove shotId).2
        context := { t.context with random } }
  | fires {fire : FireState} {held : TaskId} {rest : List TaskId} {bullet : Task}
      {shotId : BulletId} {pool : Pool} {direction speed : Float32} {roots : List TaskId}
      {tasks : Arena} {r random : Random}
      (hk : task.kind = .fire fire) (hc : task.children = held :: rest)
      (hh : t.tasks.get? held = some bullet) (hp : t.pool.create = (some shotId, pool))
      (hb : bindShot p held fire.bullet bullet.params (t.shot shotId direction speed)
        t.context.rank ⟨t.tasks, r⟩ = .ok roots ⟨tasks, random⟩) :
      Acts p id task t (.ok .ended) { t with
        tasks := own id roots tasks
        pool := pool.place { t.shot shotId direction speed with tasks := roots }
        context := { t.context with random, sequence := ⟨direction, speed⟩ }.countFired }

/-- How often a `repeat` runs, and what finding that out changes. -/
inductive Counts (p : Pattern) (id : TaskId) (task : Task) (state : RepeatState) (t : Turn) :
    UInt32 → Turn → Prop where
  | known {times : UInt32} (hs : state.times = some times) : Counts p id task state t times t
  | finds {times : UInt32} {random : Random} {notices : Array Notice}
      (hn : notices = t.notices ∨ ∃ wanted,
        notices = t.notices.push (.repeatClamped p.name task.node wanted maxRepeat)) :
      Counts p id task state t times { t with
        tasks := t.tasks.modify id fun task =>
          { task with kind := .repeat { state with times := some times } }
        context := { t.context with random }
        notices }

/-- Something to run: a task, the tasks of a list, or the bodies that a `repeat` has left. -/
inductive Job where
  | task (id : TaskId)
  | sequence (ids : List TaskId) (status : Status)
  | bodies (room : Nat) (id : TaskId) (left : Nat)

/-- One task that was run, with the states around it and its answer. -/
structure Call where
  task : TaskId
  before : Turn
  answer : Except PatternError Status
  after : Turn

def start (id : TaskId) (t : Turn) : Turn :=
  { t with tasks := t.tasks.modify id (·.advance .running) }

def close (id : TaskId) (answer : Except PatternError Status) (t : Turn) : Turn :=
  match answer with
  | .ok .ended => { t with tasks := t.tasks.modify id (·.advance .finished) }
  | _ => t

/-- The state after the body of a `repeat` was let go. -/
def shed (body : TaskId) (t : Turn) : Turn := { t with tasks := (t.tasks.release body).2 }

def countBody (id : TaskId) (task : Task) (t : Turn) : Turn :=
  { t with tasks := t.tasks.modify id fun _ => task.countBody }

def adopt (id child : TaskId) (t : Turn) : Turn :=
  { t with tasks := t.tasks.modify id (·.adopt child) }

def rebind (p : Pattern) (room : Nat) (id : TaskId) (task : Task) (b : Bullet) : Run TaskId :=
  bindFor p b fun b => b.bindBody (b.bindNode room) task.node id task.params

/-- A run of a job, with every task that it ran in the order in which they were entered. -/
inductive Runs (p : Pattern) :
    Nat → Job → Turn → List Call → Except PatternError Status → Turn → Prop where
  | exhausted {id : TaskId} {t : Turn} :
      Runs p 0 (.task id) t [⟨id, t, .error (.recursionLimit maxNestDepth), t⟩]
        (.error (.recursionLimit maxNestDepth)) t
  | stale {fuel : Nat} {id : TaskId} {t : Turn} (ht : t.tasks.get? id = none) :
      Runs p (fuel + 1) (.task id) t [⟨id, t, .error (.staleTask id), t⟩]
        (.error (.staleTask id)) t
  | finished {fuel : Nat} {id : TaskId} {task : Task} {t : Turn}
      (ht : t.tasks.get? id = some task) (hf : task.isFinished = true) :
      Runs p (fuel + 1) (.task id) t [⟨id, t, .ok .ended, t⟩] (.ok .ended) t
  | leaf {fuel : Nat} {id : TaskId} {task : Task} {t t' : Turn} {r : Except PatternError Status}
      (ht : t.tasks.get? id = some task) (hf : task.isFinished = false)
      (ha : Acts p id task (t.start id) r t') :
      Runs p (fuel + 1) (.task id) t [⟨id, t, r, t'.close id r⟩] r (t'.close id r)
  | composite {fuel : Nat} {id : TaskId} {task : Task} {t t' : Turn} {calls : List Call}
      {r : Except PatternError Status}
      (ht : t.tasks.get? id = some task) (hf : task.isFinished = false)
      (hk : task.kind = .action ∨ task.kind = .bullet)
      (hr : Runs p fuel (.sequence task.children .ended) (t.start id) calls r t') :
      Runs p (fuel + 1) (.task id) t (⟨id, t, r, t'.close id r⟩ :: calls) r (t'.close id r)
  | repeat {fuel : Nat} {id : TaskId} {task : Task} {state : RepeatState} {times : UInt32}
      {t t₁ t' : Turn} {calls : List Call} {r : Except PatternError Status}
      (ht : t.tasks.get? id = some task) (hf : task.isFinished = false)
      (hk : task.kind = .repeat state) (hc : Counts p id task state (t.start id) times t₁)
      (hr : Runs p fuel (.bodies state.room id (times.toNat - state.done.toNat)) t₁ calls r t') :
      Runs p (fuel + 1) (.task id) t (⟨id, t, r, t'.close id r⟩ :: calls) r (t'.close id r)
  | done {fuel : Nat} {status : Status} {t : Turn} :
      Runs p fuel (.sequence [] status) t [] (.ok status) t
  | skip {fuel : Nat} {id : TaskId} {ids : List TaskId} {status : Status} {t t' : Turn}
      {calls : List Call} {r : Except PatternError Status} (hf : t.tasks.isFinished id = true)
      (hr : Runs p fuel (.sequence ids status) t calls r t') :
      Runs p fuel (.sequence (id :: ids) status) t calls r t'
  | halt {fuel : Nat} {id : TaskId} {ids : List TaskId} {status : Status} {t t' : Turn}
      {calls : List Call} {r : Except PatternError Status} (hf : t.tasks.isFinished id = false)
      (hr : Runs p fuel (.task id) t calls r t') (he : r ≠ .ok .ended) (ho : r ≠ .ok .ongoing) :
      Runs p fuel (.sequence (id :: ids) status) t calls r t'
  | cut {fuel : Nat} {id : TaskId} {ids : List TaskId} {status answer : Status} {t t' : Turn}
      {calls : List Call} (hf : t.tasks.isFinished id = false)
      (hr : Runs p fuel (.task id) t calls (.ok answer) t') (hp : answer ≠ .paused)
      (hv : t'.bullet.vanished = true) :
      Runs p fuel (.sequence (id :: ids) status) t calls (.ok .ended) t'
  | next {fuel : Nat} {id : TaskId} {ids : List TaskId} {status answer : Status}
      {t t₁ t' : Turn} {calls more : List Call} {r : Except PatternError Status}
      (hf : t.tasks.isFinished id = false) (hr : Runs p fuel (.task id) t calls (.ok answer) t₁)
      (hp : answer ≠ .paused) (hv : t₁.bullet.vanished = false)
      (hs : Runs p fuel (.sequence ids (answer.after status)) t₁ more r t') :
      Runs p fuel (.sequence (id :: ids) status) t (calls ++ more) r t'
  | lost {fuel room : Nat} {id : TaskId} {left : Nat} {t : Turn} (ht : t.tasks.get? id = none) :
      Runs p fuel (.bodies room id left) t [] (.error (.staleTask id)) t
  | bare {fuel room : Nat} {id : TaskId} {left : Nat} {task : Task} {t : Turn}
      (ht : t.tasks.get? id = some task) (hc : task.children = []) :
      Runs p fuel (.bodies room id left) t [] (.ok .ended) t
  | spent {fuel room : Nat} {id body : TaskId} {rest : List TaskId} {task : Task} {t : Turn}
      (ht : t.tasks.get? id = some task) (hc : task.children = body :: rest) :
      Runs p fuel (.bodies room id 0) t [] (.ok .ended) (t.shed body)
  | hold {fuel room : Nat} {id body : TaskId} {rest : List TaskId} {left : Nat} {task : Task}
      {t t' : Turn} {calls : List Call} {r : Except PatternError Status}
      (ht : t.tasks.get? id = some task) (hc : task.children = body :: rest)
      (hr : Runs p fuel (.task body) t calls r t') (he : r ≠ .ok .ended) :
      Runs p fuel (.bodies room id (left + 1)) t calls r t'
  | vacant {fuel room : Nat} {id body : TaskId} {rest : List TaskId} {left : Nat} {task : Task}
      {t t' : Turn} {calls : List Call}
      (ht : t.tasks.get? id = some task) (hc : task.children = body :: rest)
      (hr : Runs p fuel (.task body) t calls (.ok .ended) t')
      (hn : (t'.shed body).tasks.get? id = none) :
      Runs p fuel (.bodies room id (left + 1)) t calls (.error (.staleTask id)) (t'.shed body)
  | last {fuel room : Nat} {id body : TaskId} {rest : List TaskId} {left : Nat}
      {task task' : Task} {t t' : Turn} {calls : List Call}
      (ht : t.tasks.get? id = some task) (hc : task.children = body :: rest)
      (hr : Runs p fuel (.task body) t calls (.ok .ended) t')
      (ht' : (t'.shed body).tasks.get? id = some task')
      (hl : left = 0 ∨ t'.bullet.vanished = true) :
      Runs p fuel (.bodies room id (left + 1)) t calls (.ok .ended)
        ((t'.shed body).countBody id task')
  | unbound {fuel room : Nat} {id body : TaskId} {rest : List TaskId} {left : Nat}
      {task task' : Task} {t t₁ t' : Turn} {calls : List Call} {e : PatternError}
      (ht : t.tasks.get? id = some task) (hc : task.children = body :: rest)
      (hr : Runs p fuel (.task body) t calls (.ok .ended) t₁)
      (ht' : (t₁.shed body).tasks.get? id = some task')
      (hb : rebind p room id task' t₁.bullet ((t₁.shed body).countBody id task') = .error e t') :
      Runs p fuel (.bodies room id (left + 1)) t calls (.error e) t'
  | again {fuel room : Nat} {id body fresh : TaskId} {rest : List TaskId} {left : Nat}
      {task task' : Task} {t t₁ t₂ t' : Turn} {calls more : List Call}
      {r : Except PatternError Status}
      (ht : t.tasks.get? id = some task) (hc : task.children = body :: rest)
      (hr : Runs p fuel (.task body) t calls (.ok .ended) t₁)
      (ht' : (t₁.shed body).tasks.get? id = some task')
      (hb : rebind p room id task' t₁.bullet ((t₁.shed body).countBody id task') = .ok fresh t₂)
      (hs : Runs p fuel (.bodies room id left) (t₂.adopt id fresh) more r t') :
      Runs p fuel (.bodies room id (left + 1)) t (calls ++ more) r t'

section Adequacy

variable {p : Pattern} {fuel : Nat} {id : TaskId} {task : Task} {t : Turn}

/-- What a run answered. -/
def answer {α : Type} : EStateM.Result PatternError Turn α → Except PatternError α
  | .ok a _ => .ok a
  | .error e _ => .error e

/-- The state in which a run left things. -/
def state {α : Type} : EStateM.Result PatternError Turn α → Turn
  | .ok _ t => t
  | .error _ t => t

section Log

variable (p : Pattern) (run : TaskId → Run Status) (log : TaskId → Turn → List Call)

/-- What is run for the tasks of a list, where `log` tells what is run for one task. -/
def logSequence : List TaskId → Turn → List Call
  | [], _ => []
  | id :: ids, t =>
    if t.tasks.isFinished id then logSequence ids t
    else
      log id t ++ match run id t with
        | .error _ _ => []
        | .ok .paused _ => []
        | .ok _ t => if t.bullet.vanished then [] else logSequence ids t

/-- The state in which the next body runs, if one is due once a body has ended. -/
def dueBody (room : Nat) (id body : TaskId) (left : Nat) (t : Turn) : Option Turn :=
  match finishBody id body t with
  | .error _ _ => none
  | .ok task t =>
    if left == 0 || t.bullet.vanished then none
    else
      match bindFor p t.bullet (fun b => b.bindBody (b.bindNode room) task.node id task.params) t with
      | .error _ _ => none
      | .ok fresh t => some (t.adopt id fresh)

/-- What is run for the bodies that a `repeat` has left. -/
def logBodies (room : Nat) (id : TaskId) : Nat → Turn → List Call
  | 0, _ => []
  | left + 1, t =>
    match t.tasks.child? id 0 with
    | none => []
    | some body =>
      log body t ++ match run body t with
        | .ok .ended t =>
          match dueBody p room id body left t with
          | some t => logBodies room id left t
          | none => []
        | _ => []

def logKind (id : TaskId) (task : Task) (t : Turn) : List Call :=
  match task.kind with
  | .action | .bullet => logSequence run log task.children t
  | .repeat state =>
    match repeatTimes p id task state t with
    | .ok times t => logBodies p run log state.room id (times.toNat - state.done.toNat) t
    | .error _ _ => []
  | _ => []

/-- What is run for a task that is not over. -/
def logWithin (id : TaskId) (t : Turn) : List Call :=
  match t.tasks.get? id with
  | none => []
  | some task => if task.isFinished then [] else logKind p run log id task (t.start id)

end Log

/-- The log of a task: every task that it runs, in the order in which they are entered. -/
def logTask (p : Pattern) : Nat → TaskId → Turn → List Call
  | 0, id, t => [⟨id, t, answer (runTask p 0 id t), state (runTask p 0 id t)⟩]
  | fuel + 1, id, t =>
    ⟨id, t, answer (runTask p (fuel + 1) id t), state (runTask p (fuel + 1) id t)⟩ ::
      logWithin p (runTask p fuel) (logTask p fuel) id t

/-- The log tells a run by the rules that leads to the result. -/
def Logged (p : Pattern) (fuel : Nat) (job : Job) (t : Turn) (log : List Call)
    (x : EStateM.Result PatternError Turn Status) : Prop :=
  Runs p fuel job t log (answer x) (state x)

theorem get_bind {α : Type} (f : Turn → Run α) : (get >>= f) t = f t t := rfl

theorem task_of_some (ht : t.tasks.get? id = some task) : Turn.task id t = .ok task t := by
  simp only [Turn.task, get_bind, ht]
  rfl

theorem task_of_none (ht : t.tasks.get? id = none) :
    Turn.task id t = .error (.staleTask id) t := by
  simp only [Turn.task, get_bind, ht]
  rfl

/-- The step cannot fail and only draws random numbers. -/
def Quiet {α : Type} (m : Run α) : Prop :=
  ∀ t, ∃ a random, m t = .ok a { t with context := { t.context with random } }

theorem Quiet.pure {α : Type} (a : α) : Quiet (pure a) := fun t => ⟨a, t.context.random, rfl⟩

theorem Quiet.get : Quiet get := fun t => ⟨t, t.context.random, rfl⟩

theorem Quiet.eval (p : Pattern) (node : NodeId) (params : List Float32) :
    Quiet (eval p node params) := fun _ => ⟨_, _, rfl⟩

theorem Quiet.bind {α β : Type} {m : Run α} {f : α → Run β} (hm : Quiet m)
    (hf : ∀ a, Quiet (f a)) : Quiet (m >>= f) := by
  intro t
  obtain ⟨a, random, ha⟩ := hm t
  obtain ⟨b, random', hb⟩ := hf a { t with context := { t.context with random } }
  exact ⟨b, random', by rw [bind_of_ok ha, hb]⟩

theorem Quiet.map {α β : Type} {m : Run α} (f : α → β) (hm : Quiet m) : Quiet (f <$> m) := by
  intro t
  obtain ⟨a, random, ha⟩ := hm t
  exact ⟨f a, random, map_of_ok ha⟩

theorem Quiet.evalSource (p : Pattern) (ps qs : List Float32) (source : Option ValueSource) :
    Quiet (evalSource p ps qs source) := by
  cases source with
  | none => exact .pure none
  | some source => exact .map some (.eval p _ _)

theorem Quiet.axisRamp (p : Pattern) (ps : List Float32) (current : Float32) (term : UInt32)
    (node : Option NodeId) : Quiet (axisRamp p ps current term node) := by
  cases node with
  | none => exact .pure 0
  | some node => exact .bind (.eval p node ps) fun _ => .pure _

/-- Whatever was drawn before it, the step acts on the turn. -/
def Steers (p : Pattern) (id : TaskId) (task : Task) (t : Turn) (m : Run Status) : Prop :=
  ∀ random, let r := m { t with context := { t.context with random } }
    Acts p id task t (answer r) (state r)

theorem Quiet.steers {α : Type} {m : Run α} {f : α → Run Status} (hm : Quiet m)
    (hf : ∀ a, Steers p id task t (f a)) : Steers p id task t (m >>= f) := by
  intro random
  obtain ⟨a, random', ha⟩ := hm { t with context := { t.context with random } }
  simp only [bind_of_ok ha]
  exact hf a random'

theorem steers_ramp {α : Type} {kind : TaskKind} {push : Bullet → Bullet} {r : Ramp α}
    (hk : kind.shape = task.kind.shape) (hf : ∀ fire, task.kind ≠ .fire fire)
    (hb : ∀ b, ∃ direction speed extraVelocity,
      push b = { b with direction, speed, extraVelocity }) :
    Steers p id task t (do
      setKind id kind
      modifyBullet push
      pure (rampStatus r)) := by
  obtain ⟨direction, speed, extraVelocity, hp⟩ := hb t.bullet
  intro random
  have h : Acts p id task t (.ok (rampStatus r)) { t with
      bullet := push t.bullet
      tasks := t.tasks.modify id fun task => { task with kind }
      context := { t.context with random } } := by
    rw [hp]
    exact .steers hk hf
  exact h

theorem steers_count {n : UInt32} {remaining : Option UInt32} (hk : task.kind = .wait remaining) :
    Steers p id task t
      (if n == 0 then do setKind id (.wait (some 0)); pure .ended
      else do setKind id (.wait (some (n - 1))); pure .paused) := by
  intro random
  by_cases h : n == 0
  · simp only [h, if_true]
    exact .steers (by rw [hk]; rfl) (by simp [hk])
  · simp only [h]
    exact .steers (by rw [hk]; rfl) (by simp [hk])

theorem steers_wait {remaining : Option UInt32} (hk : task.kind = .wait remaining) :
    Steers p id task t (runWait p id task remaining) := by
  cases remaining with
  | some n => exact steers_count hk
  | none => exact (Quiet.eval p _ _).map _ |>.steers fun _ => steers_count hk

theorem steers_changeDirection {change : ChangeState} (hk : task.kind = .changeDirection change) :
    Steers p id task t (runChangeDirection p id task change) := by
  have last (ramp : Ramp Float32) : Steers p id task t (do
      setKind id (.changeDirection { change with ramp := some ramp })
      modifyBullet fun b => { b with direction := b.direction + Angle.toRadians ramp.delta }
      pure (rampStatus ramp)) :=
    steers_ramp (by rw [hk]; rfl) (by simp [hk]) fun b => ⟨_, b.speed, b.extraVelocity, rfl⟩
  unfold runChangeDirection
  cases change.ramp with
  | some ramp => exact last ramp.step
  | none =>
    exact (Quiet.eval p _ _).steers fun _ => (Quiet.eval p _ _).steers fun _ =>
      Quiet.get.steers fun _ => last _

theorem steers_changeSpeed {change : ChangeState} (hk : task.kind = .changeSpeed change) :
    Steers p id task t (runChangeSpeed p id task change) := by
  have last (ramp : Ramp Float32) : Steers p id task t (do
      setKind id (.changeSpeed { change with ramp := some ramp })
      modifyBullet fun b => { b with speed := b.speed + ramp.delta }
      pure (rampStatus ramp)) :=
    steers_ramp (by rw [hk]; rfl) (by simp [hk]) fun b => ⟨b.direction, _, b.extraVelocity, rfl⟩
  unfold runChangeSpeed
  cases change.ramp with
  | some ramp => exact last ramp.step
  | none =>
    exact (Quiet.eval p _ _).steers fun _ => (Quiet.eval p _ _).steers fun _ =>
      Quiet.get.steers fun _ => last _

theorem steers_accel {accel : AccelState} (hk : task.kind = .accel accel) :
    Steers p id task t (runAccel p id task accel) := by
  have last (ramp : Ramp Point) : Steers p id task t (do
      setKind id (.accel { accel with ramp := some ramp })
      modifyBullet fun b => { b with extraVelocity := b.extraVelocity + ramp.delta }
      pure (rampStatus ramp)) :=
    steers_ramp (by rw [hk]; rfl) (by simp [hk]) fun b => ⟨b.direction, b.speed, _, rfl⟩
  unfold runAccel
  cases accel.ramp with
  | some ramp => exact last ramp.step
  | none =>
    exact Quiet.get.steers fun _ => (Quiet.eval p _ _).steers fun _ =>
      (Quiet.axisRamp p _ _ _ _).steers fun _ => (Quiet.axisRamp p _ _ _ _).steers fun _ => last _

theorem forM_own (fire : TaskId) (roots : List TaskId) (t : Turn) :
    (roots.forM fun root => modifyTask root fun task => { task with owner := some fire } :
      Run Unit) t = .ok () { t with tasks := own fire roots t.tasks } := by
  induction roots generalizing t with
  | nil => rfl
  | cons root roots ih =>
    have step : modifyTask root (fun task => { task with owner := some fire }) t =
      .ok () { t with tasks := t.tasks.modify root fun task => { task with owner := some fire } } :=
        rfl
    exact (bind_of_ok step).trans (ih _)

theorem create_none {pool : Pool} (hp : t.pool.create = (none, pool)) :
    t.pool.isFull = true ∧ pool = t.pool := by
  unfold Pool.create at hp
  split at hp
  · rename_i hf
    cases hp
    exact ⟨hf, rfl⟩
  · cases hp

section Bind

variable {α : Type} {b : Bullet} {step : Binder → Binding α} {a : α} {s : BindState}
  {e : PatternError}

theorem bindFor_of_ok (h : step ⟨p, t.context.rank, b⟩ ⟨t.tasks, t.context.random⟩ = .ok a s) :
    bindFor p b step t =
      .ok a { t with tasks := s.tasks, context := { t.context with random := s.random } } := by
  simp only [bindFor, h]

theorem bindFor_of_error
    (h : step ⟨p, t.context.rank, b⟩ ⟨t.tasks, t.context.random⟩ = .error e s) :
    bindFor p b step t =
      .error e { t with tasks := s.tasks, context := { t.context with random := s.random } } := by
  simp only [bindFor, h]

theorem orDiscard_of_ok {m : Run α} {t' : Turn} (shotId : BulletId) (h : m t = .ok a t') :
    orDiscard shotId m t = .ok a t' := by
  simp only [orDiscard, h]

theorem orDiscard_of_error {m : Run α} {t' : Turn} (shotId : BulletId) (h : m t = .error e t') :
    orDiscard shotId m t = .error e { t' with pool := (t'.pool.remove shotId).2 } := by
  simp only [orDiscard, h]

end Bind

theorem acts_launch {fire : FireState} {held : TaskId} {rest : List TaskId} {bullet : Task}
    {shotId : BulletId} {pool : Pool} {direction speed : Float32} {random : Random}
    (hk : task.kind = .fire fire) (hc : task.children = held :: rest)
    (hh : t.tasks.get? held = some bullet) (hp : t.pool.create = (some shotId, pool)) :
    let r := (do
      launch p id held fire.bullet bullet.params (t.shot shotId direction speed)
      modifyContext fun c => { c with sequence := ⟨direction, speed⟩ }.countFired
      pure .ended : Run Status) { t with pool, context := { t.context with random } }
    Acts p id task t (answer r) (state r) := by
  intro r
  simp only [r, launch, bind_assoc]
  cases hb : bindShot p held fire.bullet bullet.params (t.shot shotId direction speed)
      t.context.rank ⟨t.tasks, random⟩ with
  | error e s =>
    rw [bind_of_error (orDiscard_of_error _ (bindFor_of_error hb))]
    exact .misfires hk hc hh hp hb
  | ok roots s =>
    rw [bind_of_ok (orDiscard_of_ok _ (bindFor_of_ok hb)), bind_of_ok (forM_own id roots _)]
    exact .fires hk hc hh hp hb

theorem acts_fire {fire : FireState} (hk : task.kind = .fire fire) :
    Acts p id task t (answer (runFire p id task fire t)) (state (runFire p id task fire t)) := by
  unfold runFire
  cases hc : task.children with
  | nil => exact .empty hk hc
  | cons held rest =>
    cases hh : t.tasks.get? held with
    | none =>
      simp only [bind_of_error (task_of_none hh)]
      exact .unheld hk hc hh
    | some bullet =>
      simp only [bind_of_ok (task_of_some hh)]
      have hreserve : reserve t = .ok t.pool.create.1 { t with pool := t.pool.create.2 } := rfl
      rw [bind_of_ok hreserve]
      rcases hp : t.pool.create with ⟨_ | shotId, pool⟩
      · obtain ⟨hf, rfl⟩ := create_none hp
        exact .drops hk hc hh hf
      · simp only
        obtain ⟨d, r₁, h₁⟩ :=
          Quiet.evalSource p task.params bullet.params fire.direction { t with pool }
        obtain ⟨v, r₂, h₂⟩ := Quiet.evalSource p task.params bullet.params fire.speed
          { t with pool, context := { t.context with random := r₁ } }
        have hinputs : fireInputs { t with pool, context := { t.context with random := r₂ } } =
          .ok _ { t with pool, context := { t.context with random := r₂ } } := rfl
        have hnew (direction speed : Float32) :
          newShot shotId direction speed
              { t with pool, context := { t.context with random := r₂ } } =
            .ok (t.shot shotId direction speed)
              { t with pool, context := { t.context with random := r₂ } } := rfl
        rw [bind_of_ok h₁, bind_of_ok h₂, bind_of_ok hinputs, bind_of_ok (hnew _ _)]
        exact acts_launch hk hc hh hp

theorem counts_repeatTimes (p : Pattern) (id : TaskId) (task : Task) (st : RepeatState)
    (t : Turn) :
    ∃ times t', repeatTimes p id task st t = .ok times t' ∧ Counts p id task st t times t' := by
  have found (n : UInt32) (random : Random) :
      ∃ times t', (do
        let times := if maxRepeat < n then maxRepeat else n
        if maxRepeat < n then notify (.repeatClamped p.name task.node n maxRepeat)
        setKind id (.repeat { st with times := some times })
        pure times : Run UInt32) { t with context := { t.context with random } } = .ok times t' ∧
        Counts p id task st t times t' := by
    by_cases h : maxRepeat < n
    · simp only [h, if_true]
      exact ⟨_, _, rfl, .finds (.inr ⟨n, rfl⟩)⟩
    · simp only [h, if_false]
      exact ⟨_, _, rfl, .finds (.inl rfl)⟩
  unfold repeatTimes
  cases hs : st.times with
  | some times => exact ⟨times, t, rfl, .known hs⟩
  | none =>
    cases p.child? task.node .times with
    | none => exact found 0 t.context.random
    | some node =>
      obtain ⟨n, random, hn⟩ := (Quiet.eval p node task.params).map Binary32.toCount t
      simp only [bind_of_ok hn]
      exact found n random

variable {run : TaskId → Run Status} {log : TaskId → Turn → List Call}

theorem logged_sequence (hrun : ∀ id t, Logged p fuel (.task id) t (log id t) (run id t))
    (ids : List TaskId) (status : Status) (t : Turn) :
    Logged p fuel (.sequence ids status) t (logSequence run log ids t)
      (runSequence run ids status t) := by
  induction ids generalizing status t with
  | nil => exact .done
  | cons id ids ih =>
    rw [runSequence, get_bind, logSequence]
    cases hf : t.tasks.isFinished id with
    | true => exact .skip hf (ih status t)
    | false =>
      have h := hrun id t
      simp only [Bool.false_eq_true, if_false]
      have vanished (t : Turn) : isVanished t = .ok t.bullet.vanished t := rfl
      cases hr : run id t with
      | error e t' =>
        rw [hr] at h
        rw [bind_of_error hr]
        simp only [List.append_nil]
        exact .halt hf h nofun nofun
      | ok answer t' =>
        rw [hr] at h
        rw [bind_of_ok hr]
        cases answer with
        | paused =>
          simp only [List.append_nil]
          exact .halt hf h nofun nofun
        | ongoing =>
          simp only [bind_of_ok (vanished t')]
          cases hv : t'.bullet.vanished with
          | true =>
            simp only [if_true, List.append_nil]
            exact .cut hf h (by simp) hv
          | false => exact .next hf h (by simp) hv (ih .ongoing t')
        | ended =>
          simp only [bind_of_ok (vanished t')]
          cases hv : t'.bullet.vanished with
          | true =>
            simp only [if_true, List.append_nil]
            exact .cut hf h (by simp) hv
          | false => exact .next hf h (by simp) hv (ih status t')

theorem runs_sequence
    (hrun : ∀ id t, ∃ calls, Runs p fuel (.task id) t calls (answer (run id t)) (state (run id t)))
    (ids : List TaskId) (status : Status) (t : Turn) :
    ∃ calls, Runs p fuel (.sequence ids status) t calls (answer (runSequence run ids status t))
      (state (runSequence run ids status t)) :=
  ⟨_, logged_sequence (fun id t => (hrun id t).choose_spec) ids status t⟩

section Sequence

variable {ids : List TaskId} {status answer : Status} {t' : Turn} {e : PatternError}

theorem runSequence_of_finished (hf : t.tasks.isFinished id = true) :
    runSequence run (id :: ids) status t = runSequence run ids status t := by
  rw [runSequence, get_bind]
  simp only [hf, if_true]

theorem runSequence_of_error (hf : t.tasks.isFinished id = false) (hr : run id t = .error e t') :
    runSequence run (id :: ids) status t = .error e t' := by
  rw [runSequence, get_bind]
  simp only [hf, Bool.false_eq_true, if_false, bind_of_error hr]

theorem runSequence_of_paused (hf : t.tasks.isFinished id = false)
    (hr : run id t = .ok .paused t') :
    runSequence run (id :: ids) status t = .ok .paused t' := by
  rw [runSequence, get_bind]
  simp only [hf, Bool.false_eq_true, if_false, bind_of_ok hr]
  rfl

theorem runSequence_of_vanished (hf : t.tasks.isFinished id = false)
    (hr : run id t = .ok answer t') (ha : answer ≠ .paused) (hv : t'.bullet.vanished = true) :
    runSequence run (id :: ids) status t = .ok .ended t' := by
  have vanished : isVanished t' = .ok true t' := congrArg (EStateM.Result.ok · t') hv
  rw [runSequence, get_bind]
  simp only [hf, Bool.false_eq_true, if_false, bind_of_ok hr]
  cases answer with
  | paused => exact absurd rfl ha
  | ongoing => exact bind_of_ok vanished
  | ended => exact bind_of_ok vanished

theorem runSequence_of_next (hf : t.tasks.isFinished id = false)
    (hr : run id t = .ok answer t') (ha : answer ≠ .paused) (hv : t'.bullet.vanished = false) :
    runSequence run (id :: ids) status t = runSequence run ids (answer.after status) t' := by
  have vanished : isVanished t' = .ok false t' := congrArg (EStateM.Result.ok · t') hv
  rw [runSequence, get_bind]
  simp only [hf, Bool.false_eq_true, if_false, bind_of_ok hr]
  cases answer with
  | paused => exact absurd rfl ha
  | ongoing => exact bind_of_ok vanished
  | ended => exact bind_of_ok vanished

end Sequence

theorem finishBody_of_none {body : TaskId} (hn : (t.shed body).tasks.get? id = none) :
    finishBody id body t = .error (.staleTask id) (t.shed body) := by
  have hs : release body t = .ok () (t.shed body) := rfl
  rw [finishBody, bind_of_ok hs, bind_of_error (task_of_none hn)]

theorem finishBody_of_some {body : TaskId} (ht : (t.shed body).tasks.get? id = some task) :
    finishBody id body t = .ok task.countBody ((t.shed body).countBody id task) := by
  have hs : release body t = .ok () (t.shed body) := rfl
  rw [finishBody, bind_of_ok hs, bind_of_ok (task_of_some ht)]
  rfl

/-- What is left to do once a body of a `repeat` has ended. -/
def endBody (p : Pattern) (run : TaskId → Run Status) (room : Nat) (id body : TaskId)
    (left : Nat) : Run Status := do
  let task ← finishBody id body
  if left == 0 || (← isVanished) then pure .ended
  else
    let bullet := (← get).bullet
    let fresh ← bindFor p bullet fun b => b.bindBody (b.bindNode room) task.node id task.params
    modifyTask id (·.adopt fresh)
    runBodies p run room id left

theorem runBodies_succ (room : Nat) (id : TaskId) (left : Nat) :
    runBodies p run room id (left + 1) = (do
      match (← Turn.task id).children with
      | [] => pure .ended
      | body :: _ =>
        match ← run body with
        | .ended => endBody p run room id body left
        | status => pure status) := rfl

section Bodies

variable {room left : Nat} {body : TaskId} {rest : List TaskId} {answer : Status} {t' : Turn}
  {e : PatternError}

theorem runBodies_of_spent (ht : t.tasks.get? id = some task) (hc : task.children = body :: rest) :
    runBodies p run room id 0 t = .ok .ended (t.shed body) := by
  rw [runBodies, bind_of_ok (task_of_some ht), hc]
  rfl

theorem runBodies_of_error (ht : t.tasks.get? id = some task) (hc : task.children = body :: rest)
    (hr : run body t = .error e t') : runBodies p run room id (left + 1) t = .error e t' := by
  rw [runBodies_succ, bind_of_ok (task_of_some ht), hc]
  simp only [bind_of_error hr]

theorem runBodies_of_hold (ht : t.tasks.get? id = some task) (hc : task.children = body :: rest)
    (hr : run body t = .ok answer t') (ha : answer ≠ .ended) :
    runBodies p run room id (left + 1) t = .ok answer t' := by
  rw [runBodies_succ, bind_of_ok (task_of_some ht), hc]
  simp only [bind_of_ok hr]
  cases answer with
  | ended => exact absurd rfl ha
  | ongoing => rfl
  | paused => rfl

theorem runBodies_of_ended (ht : t.tasks.get? id = some task) (hc : task.children = body :: rest)
    (hr : run body t = .ok .ended t') :
    runBodies p run room id (left + 1) t = endBody p run room id body left t' := by
  rw [runBodies_succ, bind_of_ok (task_of_some ht), hc]
  simp only [bind_of_ok hr]

theorem endBody_of_last (ht : (t.shed body).tasks.get? id = some task)
    (hl : left = 0 ∨ t.bullet.vanished = true) :
    endBody p run room id body left t = .ok .ended ((t.shed body).countBody id task) := by
  have vanished : isVanished ((t.shed body).countBody id task) =
    .ok t.bullet.vanished ((t.shed body).countBody id task) := rfl
  rw [endBody, bind_of_ok (finishBody_of_some ht), bind_of_ok vanished, if_pos (by simpa using hl)]
  rfl

/-- A body is due and bound, or it cannot be. -/
theorem endBody_of_due (ht : (t.shed body).tasks.get? id = some task)
    (hl : ¬(left = 0 ∨ t.bullet.vanished = true)) :
    endBody p run room id body left t =
      match rebind p room id task t.bullet ((t.shed body).countBody id task) with
      | .error e t' => .error e t'
      | .ok fresh t' => runBodies p run room id left (t'.adopt id fresh) := by
  have vanished : isVanished ((t.shed body).countBody id task) =
    .ok t.bullet.vanished ((t.shed body).countBody id task) := rfl
  have hrebind : (bindFor p ((t.shed body).countBody id task).bullet fun b =>
      b.bindBody (b.bindNode room) task.countBody.node id task.countBody.params) =
    rebind p room id task t.bullet := rfl
  rw [endBody, bind_of_ok (finishBody_of_some ht), bind_of_ok vanished, if_neg (by simpa using hl),
    get_bind, hrebind]
  cases hb : rebind p room id task t.bullet ((t.shed body).countBody id task) with
  | error e t' => rw [bind_of_error hb]
  | ok fresh t' =>
    rw [bind_of_ok hb]
    rfl

end Bodies

/-- What is run once a body of a `repeat` has ended. -/
theorem logged_endBody {room left : Nat} {body : TaskId} {rest : List TaskId} {t' : Turn}
    {calls : List Call} (ht : t.tasks.get? id = some task) (hc : task.children = body :: rest)
    (h : Runs p fuel (.task body) t calls (.ok .ended) t')
    (ih : ∀ t, Logged p fuel (.bodies room id left) t (logBodies p run log room id left t)
      (runBodies p run room id left t)) :
    Logged p fuel (.bodies room id (left + 1)) t
      (calls ++ match dueBody p room id body left t' with
        | some t => logBodies p run log room id left t
        | none => [])
      (endBody p run room id body left t') := by
  rw [endBody, dueBody]
  cases ht' : (t'.shed body).tasks.get? id with
  | none =>
    rw [bind_of_error (finishBody_of_none ht'), finishBody_of_none ht']
    simp only [List.append_nil]
    exact .vacant ht hc h ht'
  | some task' =>
    have vanished : isVanished ((t'.shed body).countBody id task') =
      .ok t'.bullet.vanished ((t'.shed body).countBody id task') := rfl
    have hv : ((t'.shed body).countBody id task').bullet.vanished = t'.bullet.vanished := rfl
    rw [bind_of_ok (finishBody_of_some ht'), bind_of_ok vanished, finishBody_of_some ht']
    simp only [hv]
    by_cases hl : left = 0 ∨ t'.bullet.vanished = true
    · rw [if_pos (by simpa using hl), if_pos (by simpa using hl)]
      simp only [List.append_nil]
      exact .last ht hc h ht' hl
    · have hrebind : (bindFor p ((t'.shed body).countBody id task').bullet fun b =>
          b.bindBody (b.bindNode room) task'.countBody.node id task'.countBody.params) =
        rebind p room id task' t'.bullet := rfl
      rw [if_neg (by simpa using hl), if_neg (by simpa using hl), get_bind, hrebind]
      cases hb : rebind p room id task' t'.bullet ((t'.shed body).countBody id task') with
      | error e t₂ =>
        rw [bind_of_error hb]
        simp only [List.append_nil]
        exact .unbound ht hc h ht' hb
      | ok fresh t₂ =>
        rw [bind_of_ok hb]
        exact .again ht hc h ht' hb (ih (t₂.adopt id fresh))

theorem child?_zero {rest : List TaskId} {body : TaskId} (ht : t.tasks.get? id = some task)
    (hc : task.children = body :: rest) : t.tasks.child? id 0 = some body := by
  rw [Arena.child?, ht, Option.bind_some, hc]
  rfl

theorem logged_bodies (hrun : ∀ id t, Logged p fuel (.task id) t (log id t) (run id t))
    (room : Nat) (id : TaskId) (left : Nat) (t : Turn) :
    Logged p fuel (.bodies room id left) t (logBodies p run log room id left t)
      (runBodies p run room id left t) := by
  induction left generalizing t with
  | zero =>
    rw [runBodies, logBodies]
    cases ht : t.tasks.get? id with
    | none =>
      rw [bind_of_error (task_of_none ht)]
      exact .lost ht
    | some task =>
      rw [bind_of_ok (task_of_some ht)]
      cases hc : task.children with
      | nil => exact .bare ht hc
      | cons body rest => exact .spent ht hc
  | succ left ih =>
    rw [runBodies_succ, logBodies]
    cases ht : t.tasks.get? id with
    | none =>
      have hchild : t.tasks.child? id 0 = none := by
        rw [Arena.child?, ht]
        rfl
      rw [bind_of_error (task_of_none ht), hchild]
      exact .lost ht
    | some task =>
      rw [bind_of_ok (task_of_some ht)]
      cases hc : task.children with
      | nil =>
        have hchild : t.tasks.child? id 0 = none := by
          rw [Arena.child?, ht, Option.bind_some, hc]
          rfl
        rw [hchild]
        exact .bare ht hc
      | cons body rest =>
        have h := hrun body t
        rw [child?_zero ht hc]
        simp only
        cases hr : run body t with
        | error e t' =>
          rw [hr] at h
          rw [bind_of_error hr]
          simp only [List.append_nil]
          exact .hold ht hc h (by rintro ⟨⟩)
        | ok answer t' =>
          rw [hr] at h
          rw [bind_of_ok hr]
          cases answer with
          | paused =>
            simp only [List.append_nil]
            exact .hold ht hc h (by rintro ⟨⟩)
          | ongoing =>
            simp only [List.append_nil]
            exact .hold ht hc h (by rintro ⟨⟩)
          | ended => exact logged_endBody ht hc h ih

theorem runs_bodies
    (hrun : ∀ id t, ∃ calls, Runs p fuel (.task id) t calls (answer (run id t)) (state (run id t)))
    (room : Nat) (id : TaskId) (left : Nat) (t : Turn) :
    ∃ calls, Runs p fuel (.bodies room id left) t calls (answer (runBodies p run room id left t))
      (state (runBodies p run room id left t)) :=
  ⟨_, logged_bodies (fun id t => (hrun id t).choose_spec) room id left t⟩

theorem runTask_of_some (fuel : Nat) (ht : t.tasks.get? id = some task)
    (hf : task.isFinished = false) {r : EStateM.Result PatternError Turn Status}
    (hr : runKind p (runTask p fuel) id task (t.start id) = r) :
    answer (runTask p (fuel + 1) id t) = answer r ∧
      state (runTask p (fuel + 1) id t) = (state r).close id (answer r) := by
  have hs : modifyTask id (·.advance .running) t = .ok () (t.start id) := rfl
  rw [runTask, bind_of_ok (task_of_some ht)]
  simp only [hf, Bool.false_eq_true, if_false]
  rw [bind_of_ok hs]
  cases r with
  | error e t' =>
    rw [bind_of_error hr]
    exact ⟨rfl, rfl⟩
  | ok status t' =>
    rw [bind_of_ok hr]
    cases status with
    | ended => exact ⟨rfl, rfl⟩
    | ongoing => exact ⟨rfl, rfl⟩
    | paused => exact ⟨rfl, rfl⟩

/-- What the log of a task tells is a run by the rules. -/
theorem logged_task (p : Pattern) (fuel : Nat) (id : TaskId) (t : Turn) :
    Logged p fuel (.task id) t (logTask p fuel id t) (runTask p fuel id t) := by
  induction fuel generalizing id t with
  | zero => exact .exhausted
  | succ fuel ih =>
    rw [logTask]
    cases ht : t.tasks.get? id with
    | none =>
      have hr : runTask p (fuel + 1) id t = .error (.staleTask id) t := by
        rw [runTask, bind_of_error (task_of_none ht)]
      have hlog : logWithin p (runTask p fuel) (logTask p fuel) id t = [] := by
        simp only [logWithin, ht]
      rw [hr, hlog]
      exact .stale ht
    | some task =>
      cases hf : task.isFinished with
      | true =>
        have hr : runTask p (fuel + 1) id t = .ok .ended t := by
          rw [runTask, bind_of_ok (task_of_some ht)]
          simp only [hf, if_true]
          rfl
        have hlog : logWithin p (runTask p fuel) (logTask p fuel) id t = [] := by
          simp only [logWithin, ht, hf, if_true]
        rw [hr, hlog]
        exact .finished ht hf
      | false =>
        obtain ⟨ha, hs⟩ := runTask_of_some (p := p) fuel ht hf rfl
        have hlog : logWithin p (runTask p fuel) (logTask p fuel) id t =
            logKind p (runTask p fuel) (logTask p fuel) id task (t.start id) := by
          simp only [logWithin, ht, hf, Bool.false_eq_true, if_false]
        rw [Logged, ha, hs, hlog, logKind, runKind]
        cases hk : task.kind with
        | action => exact .composite ht hf (.inl hk) (logged_sequence ih _ _ _)
        | bullet => exact .composite ht hf (.inr hk) (logged_sequence ih _ _ _)
        | «repeat» st =>
          obtain ⟨times, t₁, hm, hcount⟩ := counts_repeatTimes p id task st (t.start id)
          simp only [runRepeat, bind_of_ok hm, hm]
          exact .repeat ht hf hk hcount (logged_bodies ih _ _ _ _)
        | fire st => exact .leaf ht hf (acts_fire hk)
        | changeDirection st => exact .leaf ht hf (steers_changeDirection hk _)
        | changeSpeed st => exact .leaf ht hf (steers_changeSpeed hk _)
        | accel st => exact .leaf ht hf (steers_accel hk _)
        | wait remaining => exact .leaf ht hf (steers_wait hk _)
        | vanish => exact .leaf ht hf (.vanishes hk)

/-- The interpreter runs by the rules. -/
theorem runs_task (p : Pattern) (fuel : Nat) (id : TaskId) (t : Turn) :
    ∃ calls, Runs p fuel (.task id) t calls (answer (runTask p fuel id t))
      (state (runTask p fuel id t)) :=
  ⟨_, logged_task p fuel id t⟩

end Adequacy

end Turn
end Barrage

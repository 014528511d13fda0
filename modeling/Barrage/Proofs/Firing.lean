import Barrage.Proofs.Host

namespace Barrage

/-- A bullet that leaves: the fire it leaves from, the parameters held for it, and the turn as the
fire finds it. -/
structure Firing where
  pattern : Pattern
  id : TaskId
  task : Task
  fire : FireState
  params : List Float32
  turn : Turn

namespace Firing

/-- What is written for a direction or a speed, and the random numbers left after it. -/
def value (f : Firing) (source : Option ValueSource) (r : Random) : Option Float32 × Random :=
  match source with
  | none => (none, r)
  | some s =>
    let params := if s.fromBullet then f.params else f.task.params
    let (v, r) := f.pattern.evalNode s.node (f.turn.context.scope params f.turn.bullet) r
    (some v, r)

def directionValue (f : Firing) : Option Float32 :=
  (f.value f.fire.direction f.turn.context.random).1

def speedValue (f : Firing) : Option Float32 :=
  (f.value f.fire.speed (f.value f.fire.direction f.turn.context.random).2).1

/-- The random numbers left once both values are known. -/
def random (f : Firing) : Random :=
  (f.value f.fire.speed (f.value f.fire.direction f.turn.context.random).2).2

def inputs (f : Firing) : FireInputs :=
  ⟨f.turn.bullet.degrees, f.turn.bullet.speed, Angle.aim f.turn.bullet.pos f.turn.context.target,
    f.turn.context.sequence⟩

/-- The direction in degrees and the speed with which the bullet leaves. -/
def resolved (f : Firing) : SequenceState where
  lastDirection :=
    f.inputs.resolveDirection (Turn.sourceMode f.pattern f.fire.direction) f.directionValue
  lastSpeed := f.inputs.resolveSpeed (Turn.sourceMode f.pattern f.fire.speed) f.speedValue

/-- The fire went well, and its direction and speed are the last ones from then on. -/
def Succeeds (f : Firing) : Prop :=
  ∃ t, Turn.runFire f.pattern f.id f.task f.fire f.turn = .ok .ended t ∧
    t.context.sequence = f.resolved ∧
    t.context.stats.fired = f.turn.context.stats.fired + 1

end Firing

/-- The direction and speed of the last of some bullets that were fired, or else those known
before. -/
def SequenceState.after (q : SequenceState) (fs : List Firing) : SequenceState :=
  (fs.getLast?.map Firing.resolved).getD q

namespace Context

variable {c c' c'' : Context} {fs gs : List Firing}

/-- Bullets were fired one after the other: each found the sequence state that the one before it
had left, and nothing else changes that state. -/
structure Records (c c' : Context) (fs : List Firing) : Prop where
  sequence : c'.sequence = c.sequence.after fs
  linked : ∀ pre f post, fs = pre ++ f :: post → f.turn.context.sequence = c.sequence.after pre
  succeeds : ∀ f ∈ fs, f.Succeeds
  fired : c'.stats.fired = c.stats.fired + fs.length

theorem Records.still (hs : c'.sequence = c.sequence) (hf : c'.stats.fired = c.stats.fired) :
    c.Records c' [] where
  sequence := hs
  linked _ _ _ h := by simp at h
  succeeds _ h := absurd h List.not_mem_nil
  fired := hf

theorem Records.refl (c : Context) : c.Records c [] := .still rfl rfl

theorem after_append (q : SequenceState) (fs gs : List Firing) :
    q.after (fs ++ gs) = (q.after fs).after gs := by
  simp only [SequenceState.after, List.getLast?_append]
  cases gs.getLast? <;> rfl

theorem Records.trans (h₁ : c.Records c' fs) (h₂ : c'.Records c'' gs) :
    c.Records c'' (fs ++ gs) where
  sequence := by rw [h₂.sequence, h₁.sequence, after_append]
  linked pre f post h := by
    rcases List.append_eq_append_iff.1 h with ⟨more, rfl, h'⟩ | ⟨more, rfl, h'⟩
    · rw [h₂.linked more f post h', h₁.sequence, after_append]
    · cases more with
      | nil =>
        rw [h₂.linked [] f post (by simpa using h'.symm), ← List.append_nil pre, ← h₁.sequence]
        rfl
      | cons g more =>
        rw [List.cons_append, List.cons.injEq] at h'
        exact h₁.linked pre f more (by rw [h'.1])
  succeeds f hf := (List.mem_append.1 hf).elim (h₁.succeeds f) (h₂.succeeds f)
  fired := by rw [h₂.fired, h₁.fired, List.length_append, Nat.add_assoc]

end Context

/-- The bullet flies as a fire has resolved. -/
structure Bullet.FliesAs (b : Bullet) (q : SequenceState) : Prop where
  speed : b.speed = q.lastSpeed
  direction : b.direction = Angle.toRadians q.lastDirection

namespace Turn

section Log

/-- The bullet that a fire puts into play: none if the pool is full or no tasks can be bound. -/
def firedBy (p : Pattern) (id : TaskId) (task : Task) (fire : FireState) (t : Turn) :
    List Firing :=
  match (task.children.head?.bind t.tasks.get?), runFire p id task fire t with
  | some held, .ok _ _ => if t.pool.isFull then [] else [⟨p, id, task, fire, held.params, t⟩]
  | _, _ => []

variable (p : Pattern) (run : TaskId → Run Status) (log : TaskId → Turn → List Firing)

/-- The bullets that the tasks of a list fire, each of which fires as `log` says. -/
def firedInSequence : List TaskId → Turn → List Firing
  | [], _ => []
  | id :: ids, t =>
    if t.tasks.isFinished id then firedInSequence ids t
    else
      log id t ++ match run id t with
        | .ok .paused _ | .error _ _ => []
        | .ok _ t => if t.bullet.vanished then [] else firedInSequence ids t

/-- The turn once a body of a `repeat` has ended and the next one is bound, if one is due. -/
def renew (room : Nat) (id body : TaskId) (left : Nat) (t : Turn) : Option Turn :=
  match finishBody id body t with
  | .error _ _ => none
  | .ok task t =>
    if left == 0 || t.bullet.vanished then none
    else
      match rebind p room id task t.bullet t with
      | .ok fresh t => some (t.adopt id fresh)
      | .error _ _ => none

/-- The bullets that the bodies fire which a `repeat` has left. -/
def firedInBodies (room : Nat) (id : TaskId) : Nat → Turn → List Firing
  | 0, _ => []
  | left + 1, t =>
    match t.tasks.child? id 0 with
    | none => []
    | some body =>
      log body t ++ match run body t with
        | .ok .ended t =>
          match renew p room id body left t with
          | some t => firedInBodies room id left t
          | none => []
        | _ => []

def firedInKind (id : TaskId) (task : Task) (t : Turn) : List Firing :=
  match task.kind with
  | .action | .bullet => firedInSequence run log task.children t
  | .repeat state =>
    match repeatTimes p id task state t with
    | .ok times t =>
      firedInBodies p run log state.room id (times.toNat - state.done.toNat) t
    | .error _ _ => []
  | .fire fire => firedBy p id task fire t
  | _ => []

/-- The bullets that one frame of a task fires, in order. -/
def firedInTask : Nat → TaskId → Turn → List Firing
  | 0, _, _ => []
  | fuel + 1, id, t =>
    match t.tasks.get? id with
    | none => []
    | some task =>
      if task.isFinished then []
      else firedInKind p (runTask p fuel) (firedInTask fuel) id task (t.start id)

def firedInRoots (kept : List TaskId) : List TaskId → Turn → List Firing
  | [], _ => []
  | root :: rest, t =>
    firedInTask p maxTaskChain root t ++ match runTask p maxTaskChain root t with
      | .error _ _ => []
      | .ok .ended t =>
        if t.bullet.vanished then []
        else firedInRoots kept rest (t.dismiss root (kept ++ rest))
      | .ok _ t => if t.bullet.vanished then [] else firedInRoots (kept ++ [root]) rest t

/-- The bullets that one frame of the bullet's tasks fires. -/
def firings (t : Turn) : List Firing :=
  match t.bullet.pattern with
  | some p => firedInRoots p [] t.bullet.tasks t
  | none => []

end Log

/-- From `t` to `t'`, the tasks of a bullet have put these bullets into play. -/
structure Volley (t t' : Turn) (fs : List Firing) : Prop
    extends t.context.Records t'.context fs where
  bullet : t'.bullet.id = t.bullet.id
  shots : t.pool.Sound → ∃ shots : List Bullet, t.pool.Adds t'.pool shots ∧
    List.Forall₂ (fun shot f => shot.FliesAs f.resolved) shots fs ∧
    ∀ shot ∈ shots, shot.vanished = false

variable {p : Pattern} {t t' t'' : Turn} {fs gs : List Firing} {id body : TaskId} {task : Task}
  {fuel : Nat} {run : TaskId → Run Status} {log : TaskId → Turn → List Firing}

theorem Volley.trans (h₁ : Volley t t' fs) (h₂ : Volley t' t'' gs) : Volley t t'' (fs ++ gs) where
  toRecords := h₁.toRecords.trans h₂.toRecords
  bullet := h₂.bullet.trans h₁.bullet
  shots hp := by
    obtain ⟨shots, ha, hs, hv⟩ := h₁.shots hp
    obtain ⟨more, ha', hs', hv'⟩ := h₂.shots ha.sound
    exact ⟨shots ++ more, ha.trans ha', List.rel_append hs hs', fun b hb =>
      (List.mem_append.1 hb).elim (hv b) (hv' b)⟩

/-- A step after which the pool has the same bullets fires none. -/
theorem Volley.quiet (hs : t'.context.sequence = t.context.sequence)
    (hf : t'.context.stats.fired = t.context.stats.fired) (hb : t'.bullet.id = t.bullet.id)
    (hp : t.pool.Sound → t.pool.Adds t'.pool []) : Volley t t' [] where
  toRecords := .still hs hf
  bullet := hb
  shots h := ⟨[], hp h, .nil, nofun⟩

theorem Volley.still (hc : t'.context = t.context) (hb : t'.bullet.id = t.bullet.id)
    (hp : t'.pool = t.pool) : Volley t t' [] :=
  .quiet (by rw [hc]) (by rw [hc]) hb fun h => by
    rw [hp]
    exact .refl h

theorem Volley.refl (t : Turn) : Volley t t [] := .still rfl rfl rfl

/-- The step fires these bullets, whatever state it starts in. -/
def Shoots (step : Run Status) (fs : Turn → List Firing) : Prop :=
  ∀ t, Volley t (state (step t)) (fs t)

section Fire

variable {fire : FireState} {held : TaskId} {rest : List TaskId} {bullet : Task}
  {shotId : BulletId} {pool : Pool}

theorem evalSource_eq (f : Firing) (source : Option ValueSource) (pool : Pool) (r : Random) :
    evalSource f.pattern f.task.params f.params source
        { f.turn with pool, context := { f.turn.context with random := r } } =
      .ok (f.value source r).1 { f.turn with
        pool, context := { f.turn.context with random := (f.value source r).2 } } := by
  cases source <;> rfl

theorem reserve_eq (t : Turn) :
    reserve t = .ok t.pool.create.1 { t with pool := t.pool.create.2 } := rfl

/-- A fire with room for its bullet launches it as it has resolved. -/
theorem runFire_of_room (f : Firing) (hc : f.task.children = held :: rest)
    (hh : f.turn.tasks.get? held = some bullet) (hf : f.params = bullet.params)
    (hp : f.turn.pool.create = (some shotId, pool)) :
    runFire f.pattern f.id f.task f.fire f.turn = (do
      launch f.pattern f.id held f.fire.bullet f.params
        (f.turn.shot shotId f.resolved.lastDirection f.resolved.lastSpeed)
      modifyContext fun c => { c with sequence := f.resolved }.countFired
      pure .ended : Run Status)
        { f.turn with pool, context := { f.turn.context with random := f.random } } := by
  have hreserve : reserve f.turn = .ok (some shotId) { f.turn with pool } := by
    rw [reserve_eq, hp]
  have h₁ := evalSource_eq f f.fire.direction pool f.turn.context.random
  have h₂ := evalSource_eq f f.fire.speed pool (f.value f.fire.direction f.turn.context.random).2
  simp only [runFire, hc]
  rw [bind_of_ok (task_of_some hh), ← hf, bind_of_ok hreserve]
  simp only
  rw [bind_of_ok h₁, bind_of_ok h₂]
  rfl

/-- The bullet is in play once its tasks are bound. -/
theorem runFire_of_bound (f : Firing) {roots : List TaskId} {s : BindState}
    (hc : f.task.children = held :: rest) (hh : f.turn.tasks.get? held = some bullet)
    (hf : f.params = bullet.params) (hp : f.turn.pool.create = (some shotId, pool))
    (hb : bindShot f.pattern held f.fire.bullet f.params
      (f.turn.shot shotId f.resolved.lastDirection f.resolved.lastSpeed) f.turn.context.rank
      ⟨f.turn.tasks, f.random⟩ = .ok roots s) :
    runFire f.pattern f.id f.task f.fire f.turn = .ok .ended { f.turn with
      tasks := own f.id roots s.tasks
      pool := pool.place { f.turn.shot shotId f.resolved.lastDirection f.resolved.lastSpeed with
        tasks := roots }
      context := { f.turn.context with
        random := s.random
        sequence := f.resolved }.countFired } := by
  rw [runFire_of_room f hc hh hf hp]
  simp only [launch, bind_assoc]
  rw [bind_of_ok (orDiscard_of_ok _ (bindFor_of_ok hb)), bind_of_ok (forM_own f.id roots _)]
  rfl

/-- A bullet whose tasks cannot be bound gives its slot back. -/
theorem runFire_of_unbound (f : Firing) {e : PatternError} {s : BindState}
    (hc : f.task.children = held :: rest) (hh : f.turn.tasks.get? held = some bullet)
    (hf : f.params = bullet.params) (hp : f.turn.pool.create = (some shotId, pool))
    (hb : bindShot f.pattern held f.fire.bullet f.params
      (f.turn.shot shotId f.resolved.lastDirection f.resolved.lastSpeed) f.turn.context.rank
      ⟨f.turn.tasks, f.random⟩ = .error e s) :
    runFire f.pattern f.id f.task f.fire f.turn = .error e { f.turn with
      tasks := s.tasks
      pool := (pool.remove shotId).2
      context := { f.turn.context with random := s.random } } := by
  rw [runFire_of_room f hc hh hf hp]
  simp only [launch, bind_assoc]
  rw [bind_of_error (orDiscard_of_error _ (bindFor_of_error hb))]
  rfl

/-- What comes of a fire that had room for its bullet. -/
theorem volley_launch (f : Firing) (hc : f.task.children = held :: rest)
    (hh : f.turn.tasks.get? held = some bullet) (hf : f.params = bullet.params)
    (hp : f.turn.pool.create = (some shotId, pool)) :
    match runFire f.pattern f.id f.task f.fire f.turn with
    | .ok _ t => Volley f.turn t [f]
    | .error _ t => Volley f.turn t [] := by
  have hreserves (hs : f.turn.pool.Sound) := hs.reserves_create hp
  cases hb : bindShot f.pattern held f.fire.bullet f.params
      (f.turn.shot shotId f.resolved.lastDirection f.resolved.lastSpeed) f.turn.context.rank
      ⟨f.turn.tasks, f.random⟩ with
  | error e s =>
    rw [runFire_of_unbound f hc hh hf hp hb]
    exact .quiet rfl rfl rfl fun hs => (hreserves hs).remove
  | ok roots s =>
    have hrun := runFire_of_bound f hc hh hf hp hb
    rw [hrun]
    refine ⟨⟨rfl, ?_, ?_, rfl⟩, rfl, ?_⟩
    · intro pre g post h
      cases pre with
      | nil =>
        cases h
        rfl
      | cons _ pre => simp at h
    · intro g hg
      rw [List.mem_singleton.1 hg]
      exact ⟨_, hrun, rfl, rfl⟩
    · intro hs
      refine ⟨_, (hreserves hs).place (b := { f.turn.shot shotId f.resolved.lastDirection
        f.resolved.lastSpeed with tasks := roots }), .cons ⟨rfl, rfl⟩ .nil, ?_⟩
      intro shot hshot
      rw [List.mem_singleton.1 hshot]
      rfl

theorem runFire_of_full (hc : task.children = held :: rest) (hh : t.tasks.get? held = some bullet)
    (hp : t.pool.isFull = true) :
    runFire p id task fire t = .ok .ended { t with context := t.context.countDropped } := by
  have hreserve : reserve t = .ok none t := by
    rw [reserve_eq, Pool.create, if_pos hp]
  simp only [runFire, hc]
  rw [bind_of_ok (task_of_some hh), bind_of_ok hreserve]
  rfl

theorem create_of_room (hp : t.pool.isFull = false) :
    ∃ shotId pool, t.pool.create = (some shotId, pool) := by
  simp [Pool.create, hp]

theorem shoots_fire (p : Pattern) (id : TaskId) (task : Task) (fire : FireState) :
    Shoots (runFire p id task fire) (firedBy p id task fire) := by
  intro t
  cases hc : task.children with
  | nil =>
    simp only [firedBy, hc, runFire]
    exact .refl t
  | cons held rest =>
    cases hh : t.tasks.get? held with
    | none =>
      simp only [firedBy, hc, List.head?_cons, Option.bind_some, hh, runFire,
        bind_of_error (task_of_none hh)]
      exact .refl t
    | some bullet =>
      cases hp : t.pool.isFull with
      | true =>
        simp only [firedBy, hc, List.head?_cons, Option.bind_some, hh, hp,
          runFire_of_full hc hh hp]
        exact .quiet rfl rfl rfl .refl
      | false =>
        obtain ⟨shotId, pool, hcreate⟩ := create_of_room hp
        have h := volley_launch ⟨p, id, task, fire, bullet.params, t⟩ hc hh rfl hcreate
        simp only [firedBy, hc, List.head?_cons, Option.bind_some, hh, hp]
        cases hr : runFire p id task fire t with
        | ok status t' =>
          simp only [hr] at h
          exact h
        | error e t' =>
          simp only [hr] at h
          exact h

end Fire

section Steps

/-- A task that is no fire puts no bullet into play. -/
theorem Acts.volley {r : Except PatternError Status} (h : Acts p id task t r t')
    (hk : task.kind.isFire = false) : Volley t t' [] := by
  cases h with
  | steers => exact .quiet rfl rfl rfl .refl
  | vanishes => exact .still rfl rfl rfl
  | empty hk' | unheld hk' | drops hk' | misfires hk' | fires hk' =>
    rw [hk'] at hk
    cases hk

theorem Steers.volley {step : Run Status} (h : Steers p id task t step)
    (hk : task.kind.isFire = false) : Volley t (state (step t)) [] :=
  (h t.context.random).volley hk

theorem Counts.volley {st : RepeatState} {times : UInt32} (h : Counts p id task st t times t') :
    Volley t t' [] := by
  cases h with
  | known => exact .refl t
  | finds => exact .quiet rfl rfl rfl .refl

theorem volley_close (r : Except PatternError Status) : Volley t (t.close id r) [] := by
  unfold close
  split
  · exact .still rfl rfl rfl
  · exact .refl t

theorem volley_rebind (room : Nat) (id : TaskId) (task : Task) (b : Bullet) (t : Turn) :
    Volley t (state (rebind p room id task b t)) [] := by
  unfold rebind bindFor
  split <;> exact .quiet rfl rfl rfl .refl

theorem volley_finishBody (id body : TaskId) (t : Turn) :
    Volley t (state (finishBody id body t)) [] := by
  cases ht : (t.shed body).tasks.get? id with
  | none =>
    rw [finishBody_of_none ht]
    exact .still rfl rfl rfl
  | some task =>
    rw [finishBody_of_some ht]
    exact .still rfl rfl rfl

end Steps

section Repeat

variable {room left : Nat}

theorem endBody_of_renew (run : TaskId → Run Status) (h : renew p room id body left t = some t') :
    Volley t t' [] ∧ endBody p run room id body left t = runBodies p run room id left t' := by
  have hfinish := volley_finishBody id body t
  unfold renew at h
  split at h
  · cases h
  · rename_i task t₁ hf
    rw [hf] at hfinish
    split at h
    · cases h
    · rename_i hl
      have hbind := volley_rebind (p := p) room id task t₁.bullet t₁
      split at h
      · rename_i fresh t₂ hb
        cases h
        rw [hb] at hbind
        refine ⟨(hfinish.trans hbind).trans (.still rfl rfl rfl), ?_⟩
        have hvanished : isVanished t₁ = .ok t₁.bullet.vanished t₁ := rfl
        rw [endBody, bind_of_ok hf, bind_of_ok hvanished, if_neg hl, get_bind]
        exact bind_of_ok hb
      · cases h

theorem volley_endBody (h : renew p room id body left t = none) :
    Volley t (state (endBody p run room id body left t)) [] := by
  have hfinish := volley_finishBody id body t
  unfold renew at h
  split at h
  · rename_i hf
    rw [hf] at hfinish
    rw [endBody, bind_of_error hf]
    exact hfinish
  · rename_i task t₁ hf
    rw [hf] at hfinish
    have hvanished : isVanished t₁ = .ok t₁.bullet.vanished t₁ := rfl
    rw [endBody, bind_of_ok hf, bind_of_ok hvanished]
    split at h
    · rename_i hl
      rw [if_pos hl]
      exact hfinish
    · rename_i hl
      have hbind := volley_rebind (p := p) room id task t₁.bullet t₁
      split at h
      · cases h
      · rename_i hb
        rw [hb] at hbind
        have hrun : (bindFor p t₁.bullet fun b =>
            b.bindBody (b.bindNode room) task.node id task.params) t₁ = _ := hb
        rw [if_neg hl, get_bind, bind_of_error hrun]
        exact hfinish.trans hbind

theorem child?_eq (ht : t.tasks.get? id = some task) :
    t.tasks.child? id 0 = task.children.head? := by
  rw [Arena.child?, ht, Option.bind_some, List.head?_eq_getElem?]

theorem shoots_bodies (hrun : ∀ id, Shoots (run id) (log id)) (room : Nat) (id : TaskId)
    (left : Nat) :
    Shoots (runBodies p run room id left) (firedInBodies p run log room id left) := by
  induction left with
  | zero =>
    intro t
    rw [runBodies, firedInBodies]
    cases ht : t.tasks.get? id with
    | none =>
      rw [bind_of_error (task_of_none ht)]
      exact .refl t
    | some task =>
      rw [bind_of_ok (task_of_some ht)]
      cases task.children with
      | nil => exact .refl t
      | cons body rest => exact .still rfl rfl rfl
  | succ left ih =>
    intro t
    rw [runBodies_succ, firedInBodies]
    cases ht : t.tasks.get? id with
    | none =>
      rw [bind_of_error (task_of_none ht), Arena.child?, ht]
      exact .refl t
    | some task =>
      rw [bind_of_ok (task_of_some ht), child?_eq ht]
      cases hc : task.children with
      | nil => exact .refl t
      | cons body rest =>
        have h := hrun body t
        simp only [List.head?_cons]
        cases hr : run body t with
        | error e t' =>
          rw [hr] at h
          rw [bind_of_error hr, List.append_nil]
          exact h
        | ok answer t' =>
          rw [hr] at h
          rw [bind_of_ok hr]
          cases answer with
          | paused => exact h.trans (.refl t')
          | ongoing => exact h.trans (.refl t')
          | ended =>
            cases hn : renew p room id body left t' with
            | none =>
              simp only [hn]
              exact h.trans (volley_endBody hn)
            | some t₁ =>
              obtain ⟨hq, he⟩ := endBody_of_renew run hn
              simp only [hn, he]
              exact h.trans (hq.trans (ih t₁))

end Repeat

theorem shoots_sequence (hrun : ∀ id, Shoots (run id) (log id)) (ids : List TaskId)
    (status : Status) : Shoots (runSequence run ids status) (firedInSequence run log ids) := by
  induction ids generalizing status with
  | nil => exact .refl
  | cons id ids ih =>
    intro t
    rw [runSequence, get_bind, firedInSequence]
    cases t.tasks.isFinished id with
    | true => exact ih status t
    | false =>
      have h := hrun id t
      have vanished (t : Turn) : isVanished t = .ok t.bullet.vanished t := rfl
      simp only [Bool.false_eq_true, if_false]
      cases hr : run id t with
      | error e t' =>
        rw [hr] at h
        rw [bind_of_error hr, List.append_nil]
        exact h
      | ok answer t' =>
        rw [hr] at h
        rw [bind_of_ok hr]
        cases answer with
        | paused => exact h.trans (.refl t')
        | ongoing =>
          simp only [bind_of_ok (vanished t')]
          cases t'.bullet.vanished with
          | true => exact h.trans (.refl t')
          | false => exact h.trans (ih .ongoing t')
        | ended =>
          simp only [bind_of_ok (vanished t')]
          cases t'.bullet.vanished with
          | true => exact h.trans (.refl t')
          | false => exact h.trans (ih status t')

theorem shoots_kind (hrun : ∀ id, Shoots (run id) (log id)) (id : TaskId) (task : Task) :
    Shoots (runKind p run id task) (firedInKind p run log id task) := by
  intro t
  have quiet {step : Run Status} (h : Steers p id task t step) (hk : task.kind.isFire = false) :
      Volley t (state (step t)) [] := h.volley hk
  unfold runKind firedInKind
  cases hk : task.kind with
  | action => exact shoots_sequence hrun task.children .ended t
  | bullet => exact shoots_sequence hrun task.children .ended t
  | fire fire => exact shoots_fire p id task fire t
  | «repeat» st =>
    obtain ⟨times, t₁, hm, hc⟩ := counts_repeatTimes p id task st t
    simp only [runRepeat, bind_of_ok hm, hm]
    exact hc.volley.trans (shoots_bodies hrun st.room id _ t₁)
  | changeDirection st => exact quiet (steers_changeDirection hk) (by rw [hk]; rfl)
  | changeSpeed st => exact quiet (steers_changeSpeed hk) (by rw [hk]; rfl)
  | accel st => exact quiet (steers_accel hk) (by rw [hk]; rfl)
  | wait remaining => exact quiet (steers_wait hk) (by rw [hk]; rfl)
  | vanish => exact .still rfl rfl rfl

/-- A task puts into play the bullets that are listed for it, and each finds the sequence state as
the one before it has left it. -/
theorem shoots_task (p : Pattern) (fuel : Nat) (id : TaskId) :
    Shoots (runTask p fuel id) (firedInTask p fuel id) := by
  induction fuel generalizing id with
  | zero => exact .refl
  | succ fuel ih =>
    intro t
    rw [firedInTask]
    cases ht : t.tasks.get? id with
    | none =>
      rw [runTask, bind_of_error (task_of_none ht)]
      exact .refl t
    | some task =>
      cases hf : task.isFinished with
      | true =>
        rw [runTask, bind_of_ok (task_of_some ht)]
        simp only [hf, if_true]
        exact .refl t
      | false =>
        obtain ⟨_, hs⟩ := runTask_of_some (p := p) fuel ht hf rfl
        have hstart : Volley t (t.start id) [] := .still rfl rfl rfl
        have hkind := hstart.trans (shoots_kind (p := p) ih id task (t.start id))
        rw [hs]
        simpa [hf] using hkind.trans (volley_close _)

theorem volley_roots (p : Pattern) (kept rest : List TaskId) (t : Turn) :
    Volley t (runRoots p kept rest t) (firedInRoots p kept rest t) := by
  induction rest generalizing kept t with
  | nil => exact .refl t
  | cons root rest ih =>
    have h := shoots_task p maxTaskChain root t
    rw [runRoots, firedInRoots]
    cases hr : runTask p maxTaskChain root t with
    | error e t' =>
      rw [hr] at h
      exact h.trans (.still rfl rfl rfl)
    | ok status t' =>
      rw [hr] at h
      have goes : Volley t (if t'.bullet.vanished then t' else runRoots p (kept ++ [root]) rest t')
          (firedInTask p maxTaskChain root t ++
            if t'.bullet.vanished then [] else firedInRoots p (kept ++ [root]) rest t') := by
        cases t'.bullet.vanished with
        | true => exact h.trans (.refl t')
        | false => exact h.trans (ih _ t')
      cases status with
      | ended =>
        have hd : Volley t' (t'.dismiss root (kept ++ rest)) [] := .still rfl rfl rfl
        change Volley t (if t'.bullet.vanished then t'.dismiss root (kept ++ rest)
          else runRoots p kept rest (t'.dismiss root (kept ++ rest))) _
        simp only
        cases t'.bullet.vanished with
        | true => exact h.trans hd
        | false => exact h.trans (hd.trans (ih kept _))
      | ongoing => exact goes
      | paused => exact goes

/-- The turn of a bullet puts into play the bullets that are listed for it. -/
theorem volley_runTasks (t : Turn) : Volley t t.runTasks t.firings := by
  unfold runTasks firings
  cases t.bullet.pattern with
  | none => exact .refl t
  | some p => exact volley_roots p [] t.bullet.tasks t

end Turn
end Barrage

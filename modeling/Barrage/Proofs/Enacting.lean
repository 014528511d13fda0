import Barrage.Proofs.Firing
import Barrage.Proofs.Shows

namespace Barrage

/-- The room in a pool. Nothing frees a slot in a turn but a bullet that cannot be bound. -/
def Pool.room (p : Pool) : Room := ⟨p.capacity - p.size, p.store.freed⟩

/-- The stage is set as the turn stands. -/
structure Stage.Depicts (σ : Stage) (t : Turn) : Prop where
  motion : σ.motion = t.bullet.motion
  context : σ.context = t.context
  room : σ.room = t.pool.room

/-- A step that leaves the bullet and the pool alone changes only the context of the stage. -/
theorem Stage.Depicts.rebound {σ : Stage} {t t' : Turn} (h : σ.Depicts t)
    (hb : t'.bullet = t.bullet) (hp : t'.pool = t.pool) :
    ({ σ with context := t'.context } : Stage).Depicts t' where
  motion := h.motion.trans (congrArg Bullet.motion hb.symm)
  context := rfl
  room := h.room.trans (congrArg Pool.room hp.symm)

namespace Turn

/-- The stage has come to stand as the turn does, and the bullets that were fired meanwhile have
joined its cast. -/
structure Enacts (t : Turn) (σ : Stage) (t' : Turn) (σ' : Stage) : Prop where
  depicts : σ'.Depicts t'
  cast : ∃ actors, σ'.cast = σ.cast ++ actors ∧ t'.tasks.Casts (t.pool.newcomers t'.pool) actors

/-- A run and a play answer alike or fail alike, and `Q` holds of what they leave. -/
inductive Performs {α : Type} (Q : Turn → Status × α → Prop) (t : Turn) (σ : Stage) :
    EStateM.Result PatternError Turn Status →
      EStateM.Result PatternError Stage (Status × α) → Prop where
  | ok {status : Status} {a : α} {t' : Turn} {σ' : Stage} (hq : Q t' (status, a))
      (he : Enacts t σ t' σ') : Performs Q t σ (.ok status t') (.ok (status, a) σ')
  | error {e : PatternError} {t' : Turn} {σ' : Stage} (he : Enacts t σ t' σ') :
      Performs Q t σ (.error e t') (.error e σ')

variable {α β : Type} {p : Pattern} {fuel : Nat} {t t' t₀ t₁ t₂ : Turn} {σ σ' σ₀ σ₁ σ₂ : Stage}
  {id : TaskId} {task : Task} {cs : List TaskId} {ws below : List WorkTree} {status : Status}
  {X X' Y Y' N : Finset TaskId} {shots more : List Bullet} {run : TaskId → Run Status}
  {play : WorkTree → Play (Status × WorkTree)}

section Enacts

theorem newcomers_of_pool (h : t'.pool = t.pool) : t.pool.newcomers t'.pool = [] := by
  rw [h, Pool.newcomers, List.drop_length, List.filterMap_nil]

theorem Enacts.quiet (hp : t'.pool = t.pool) (hd : σ'.Depicts t') (hc : σ'.cast = σ.cast) :
    Enacts t σ t' σ' where
  depicts := hd
  cast := by
    rw [newcomers_of_pool hp]
    exact ⟨[], by rw [hc, List.append_nil], .nil⟩

theorem Enacts.refl (hd : σ.Depicts t) : Enacts t σ t σ := .quiet rfl hd rfl

/-- A quiet step goes before. -/
theorem Enacts.after (h : Enacts t₀ σ₀ t' σ') (hp : t₀.pool = t.pool) (hc : σ₀.cast = σ.cast) :
    Enacts t σ t' σ' where
  depicts := h.depicts
  cast := by
    rw [← hp, ← hc]
    exact h.cast

/-- The bullets fired first are left alone by what follows. -/
theorem Enacts.trans (h₁ : Enacts t σ t₁ σ₁) (h₂ : Enacts t₁ σ₁ t₂ σ₂)
    (hf : Fires t t₁ X X' N shots) (ha : t₁.pool.Adds t₂.pool more)
    (hr : t₁.tasks.Replaces t₂.tasks Y Y') (hd : Disjoint Y N) (hw : t₂.tasks.NoWrap) :
    Enacts t σ t₂ σ₂ where
  depicts := h₂.depicts
  cast := by
    obtain ⟨actors, hc, hcast⟩ := h₁.cast
    obtain ⟨actors', hc', hcast'⟩ := h₂.cast
    rw [hf.adds.newcomers] at hcast
    rw [ha.newcomers] at hcast'
    refine ⟨actors ++ actors', by rw [hc', hc, List.append_assoc], ?_⟩
    rw [(hf.adds.trans ha).newcomers]
    exact (hcast.apart hf.fired hr hd hw).append hcast'

/-- What follows quietly leaves the bullets that were fired alone. -/
theorem Enacts.settle (he : Enacts t σ t₁ σ₁) (hf : Fires t t₁ X X' N shots)
    (hr : t₁.tasks.Replaces t₂.tasks X' Y) (hp : t₂.pool = t₁.pool) (hd : σ₂.Depicts t₂)
    (hc : σ₂.cast = σ₁.cast) (hw : t₂.tasks.NoWrap) : Enacts t σ t₂ σ₂ := by
  have hadds : t₁.pool.Adds t₂.pool [] := by
    rw [hp]
    exact .refl hf.adds.sound
  exact he.trans (.quiet hp hd hc) hf hadds hr hf.apart hw

end Enacts

section Performs

variable {Q Q' : Turn → Status × α → Prop} {R : Turn → Status × β → Prop}
  {r : EStateM.Result PatternError Turn Status} {x : Play (Status × α)}

theorem Performs.map {f : α → β} (h : Performs Q t σ r (x σ₁))
    (hq : ∀ status t' a, r = .ok status t' → Q t' (status, a) → R t' (status, f a)) :
    Performs R t σ r ((do let (status, a) ← x; pure (status, f a)) σ₁) := by
  generalize hx : x σ₁ = y at h
  cases h with
  | ok h he =>
    rw [bind_of_ok hx]
    exact .ok (hq _ _ _ rfl h) he
  | error he =>
    rw [bind_of_error hx]
    exact .error he

theorem Performs.imp {y : EStateM.Result PatternError Stage (Status × α)} (h : Performs Q t σ r y)
    (hq : ∀ status t' a, r = .ok status t' → Q t' (status, a) → Q' t' (status, a)) :
    Performs Q' t σ r y := by
  cases h with
  | ok h he => exact .ok (hq _ _ _ rfl h) he
  | error he => exact .error he

/-- What went before leaves its bullets to what follows. -/
theorem Performs.prepend {y : EStateM.Result PatternError Stage (Status × α)}
    (h : Performs Q t₁ σ₁ r y) (he : Enacts t σ t₁ σ₁) (hf : Fires t t₁ X X' N shots)
    (ha : t₁.pool.Adds (state r).pool more) (hr : t₁.tasks.Replaces (state r).tasks Y Y')
    (hd : Disjoint Y N) (hw : (state r).tasks.NoWrap) : Performs Q t σ r y := by
  cases h with
  | ok h he' => exact .ok h (he.trans he' hf ha hr hd hw)
  | error he' => exact .error (he.trans he' hf ha hr hd hw)

end Performs

section Close

/-- What a run of a task leaves once the task is closed. -/
def closed (id : TaskId) :
    EStateM.Result PatternError Turn Status → EStateM.Result PatternError Turn Status
  | .ok status t => .ok status (t.close id (.ok status))
  | .error e t => .error e t

theorem runTask_of_unfinished (fuel : Nat) (ht : t.tasks.get? id = some task)
    (hf : task.isFinished = false) :
    runTask p (fuel + 1) id t = closed id (runKind p (runTask p fuel) id task (t.start id)) := by
  have hs : modifyTask id (·.advance .running) t = .ok () (t.start id) := rfl
  rw [runTask, bind_of_ok (task_of_some ht)]
  simp only [hf, Bool.false_eq_true, if_false]
  rw [bind_of_ok hs]
  cases hr : runKind p (runTask p fuel) id task (t.start id) with
  | error e t' => rw [bind_of_error hr, closed]
  | ok status t' =>
    rw [bind_of_ok hr, closed]
    cases status with
    | ended => rfl
    | ongoing => rfl
    | paused => rfl

theorem noWrap_closed {r : EStateM.Result PatternError Turn Status}
    (hw : (state (closed id r)).tasks.NoWrap) : (state r).tasks.NoWrap := by
  cases r with
  | ok status t => exact (grows_close id _).noWrap hw
  | error e t => exact hw

theorem state_closed (r : EStateM.Result PatternError Turn Status) :
    state (closed id r) = (state r).close id (answer r) := by
  cases r with
  | ok status t => rfl
  | error e t => rfl

theorem replaces_close (hs : t.tasks.Sound) (r : Except PatternError Status) :
    t.tasks.Replaces (t.close id r).tasks {id} {id} := by
  unfold close
  split
  · exact hs.replaces_modify (Finset.mem_singleton_self id)
  · exact .refl hs _

theorem depicts_close (h : σ.Depicts t) (r : Except PatternError Status) :
    σ.Depicts (t.close id r) := by
  unfold close
  split
  · exact ⟨h.motion, h.context, h.room⟩
  · exact h

theorem pool_close (r : Except PatternError Status) : (t.close id r).pool = t.pool := by
  unfold close
  split <;> rfl

theorem get?_close_of_ne {k : TaskId} (hk : k ≠ id) (r : Except PatternError Status) :
    (t.close id r).tasks.get? k = t.tasks.get? k := by
  unfold close
  split
  · rw [Arena.get?_modify, if_neg hk]
  · rfl

theorem get?_close (ht : t.tasks.get? id = some task) (status : Status) :
    (t.close id (.ok status)).tasks.get? id = some { task with
      phase := if status == .ended then task.phase.later .finished else task.phase } := by
  cases status with
  | ended =>
    rw [close, Arena.get?_modify, if_pos rfl, ht]
    rfl
  | ongoing => exact ht
  | paused => exact ht

/-- The task has this kind and shows these children now that it has answered, and is otherwise what
it was. -/
def Became (id : TaskId) (task : Task) (t : Turn) (x : Status × TaskKind × List WorkTree) : Prop :=
  ∃ children, t.tasks.get? id = some { task with
      kind := x.2.1
      children
      phase := Play.phase task.phase x.1 } ∧ t.tasks.Shows children x.2.2

theorem became_close {kind : TaskKind} {children : List TaskId}
    (ht : t.tasks.get? id = some { task.advance .running with kind, children })
    (hs : t.tasks.Spans children Y) (hid : id ∉ Y) (hw : t.tasks.Shows children ws) :
    Became id task (t.close id (.ok status)) (status, kind, ws) := by
  refine ⟨children, ?_, ?_⟩
  · rw [get?_close ht]
    cases status with
    | ended => rfl
    | ongoing => rfl
    | paused => rfl
  · exact hw.beside hs hid (Arena.contains_of_get? ht) fun k hk => get?_close_of_ne hk _

end Close

section Leaf

/-- A task that runs no children changes at most its own kind and the bullet. -/
theorem performs_alone {kind : TaskKind} (hs : t.tasks.Spans task.children Y) (hid : id ∉ Y)
    (hw : t.tasks.Shows task.children below) (hl : t.tasks.contains id = true)
    (hself : t₁.tasks.get? id = some { task.advance .running with kind })
    (hother : ∀ k, k ≠ id → t₁.tasks.get? k = t.tasks.get? k)
    (hspans : t₁.tasks.Spans task.children Y) (hpool : t₁.pool = t.pool) (hd : σ₁.Depicts t₁)
    (hc : σ₁.cast = σ.cast) :
    Performs (Became id task) t σ (closed id (.ok status t₁))
      (.ok (status, kind, below) σ₁) := by
  apply Performs.ok
  · exact became_close hself hspans hid (hw.beside hs hid hl hother)
  · exact .quiet ((pool_close _).trans hpool) (depicts_close hd _) hc

theorem get?_start_of_ne {k : TaskId} (hk : k ≠ id) :
    (t.start id).tasks.get? k = t.tasks.get? k := by
  rw [start, Arena.get?_modify, if_neg hk]

theorem performs_steer {kind : TaskKind} (ht : t.tasks.get? id = some task)
    (hs : t.tasks.Spans task.children Y) (hid : id ∉ Y) (hw : t.tasks.Shows task.children below)
    (htasks : t₁.tasks = (t.start id).tasks.modify id fun task => { task with kind })
    (hpool : t₁.pool = t.pool) (hd : σ₁.Depicts t₁) (hc : σ₁.cast = σ.cast) :
    Performs (Became id task) t σ (closed id (.ok status t₁))
      (.ok (status, kind, below) σ₁) := by
  have hstart : (t.start id).tasks.Spans task.children Y := hs.modify fun _ => rfl
  apply performs_alone hs hid hw (Arena.contains_of_get? ht) _ _ _ hpool hd hc
  · rw [htasks, Arena.get?_modify, if_pos rfl, get?_start ht]
    rfl
  · intro k hk
    rw [htasks, Arena.get?_modify, if_neg hk, get?_start_of_ne hk]
  · rw [htasks]
    exact hstart.modify fun _ => rfl

variable (ht : t.tasks.get? id = some task) (hs : t.tasks.Spans task.children Y) (hid : id ∉ Y)
  (hw : t.tasks.Shows task.children below) (hd : σ.Depicts t)

include ht hs hid hw hd

theorem performs_wait {remaining : Option UInt32} (hk : task.kind = .wait remaining) :
    Performs (Became id task) t σ (closed id (runKind p run id task (t.start id)))
      (Play.kind p play task.node task.params below task.kind σ) := by
  obtain ⟨motion, context, room, cast⟩ := σ
  obtain ⟨rfl, rfl, hroom⟩ := hd
  simp only [runKind, hk, Play.kind]
  have counted (n : UInt32) (c : Context) :
      Performs (Became id task) t ⟨t.bullet.motion, t.context, room, cast⟩
        (closed id ((if n == 0 then do setKind id (.wait (some 0)); pure .ended
          else do setKind id (.wait (some (n - 1))); pure .paused : Run Status)
          { t.start id with context := c }))
        ((do
          let x ← (if n == 0 then pure (.ended, .wait (some 0))
            else pure (.paused, .wait (some (n - 1))) : Play (Status × TaskKind))
          pure (x.1, x.2, below) : Play (Status × TaskKind × List WorkTree))
          ⟨t.bullet.motion, c, room, cast⟩) := by
    by_cases hn : n == 0
    · simp only [hn, if_true]
      exact performs_steer ht hs hid hw rfl rfl ⟨rfl, rfl, hroom⟩ rfl
    · simp only [hn]
      exact performs_steer ht hs hid hw rfl rfl ⟨rfl, rfl, hroom⟩ rfl
  cases remaining with
  | some n => exact counted n t.context
  | none => exact counted _ _

theorem performs_changeDirection {change : ChangeState}
    (hk : task.kind = .changeDirection change) :
    Performs (Became id task) t σ (closed id (runKind p run id task (t.start id)))
      (Play.kind p play task.node task.params below task.kind σ) := by
  obtain ⟨motion, context, room, cast⟩ := σ
  obtain ⟨rfl, rfl, hroom⟩ := hd
  simp only [runKind, hk, Play.kind, runChangeDirection, Play.changeDirection]
  cases change.ramp with
  | some ramp => exact performs_steer ht hs hid hw rfl rfl ⟨rfl, rfl, hroom⟩ rfl
  | none => exact performs_steer ht hs hid hw rfl rfl ⟨rfl, rfl, hroom⟩ rfl

theorem performs_changeSpeed {change : ChangeState} (hk : task.kind = .changeSpeed change) :
    Performs (Became id task) t σ (closed id (runKind p run id task (t.start id)))
      (Play.kind p play task.node task.params below task.kind σ) := by
  obtain ⟨motion, context, room, cast⟩ := σ
  obtain ⟨rfl, rfl, hroom⟩ := hd
  simp only [runKind, hk, Play.kind, runChangeSpeed, Play.changeSpeed]
  cases change.ramp with
  | some ramp => exact performs_steer ht hs hid hw rfl rfl ⟨rfl, rfl, hroom⟩ rfl
  | none => exact performs_steer ht hs hid hw rfl rfl ⟨rfl, rfl, hroom⟩ rfl

theorem performs_accel {accel : AccelState} (hk : task.kind = .accel accel) :
    Performs (Became id task) t σ (closed id (runKind p run id task (t.start id)))
      (Play.kind p play task.node task.params below task.kind σ) := by
  obtain ⟨motion, context, room, cast⟩ := σ
  obtain ⟨rfl, rfl, hroom⟩ := hd
  simp only [runKind, hk, Play.kind, runAccel, Play.accel]
  cases accel.ramp with
  | some ramp => exact performs_steer ht hs hid hw rfl rfl ⟨rfl, rfl, hroom⟩ rfl
  | none =>
    cases accel.horizontal with
    | none =>
      cases accel.vertical with
      | none => exact performs_steer ht hs hid hw rfl rfl ⟨rfl, rfl, hroom⟩ rfl
      | some v => exact performs_steer ht hs hid hw rfl rfl ⟨rfl, rfl, hroom⟩ rfl
    | some h =>
      cases accel.vertical with
      | none => exact performs_steer ht hs hid hw rfl rfl ⟨rfl, rfl, hroom⟩ rfl
      | some v => exact performs_steer ht hs hid hw rfl rfl ⟨rfl, rfl, hroom⟩ rfl

theorem performs_vanish (hk : task.kind = .vanish) :
    Performs (Became id task) t σ (closed id (runKind p run id task (t.start id)))
      (Play.kind p play task.node task.params below task.kind σ) := by
  obtain ⟨motion, context, room, cast⟩ := σ
  obtain ⟨rfl, rfl, hroom⟩ := hd
  simp only [runKind, hk, Play.kind]
  have hself : (t.start id).tasks.get? id =
      some { task.advance .running with kind := .vanish } := by
    rw [get?_start ht, ← hk]
    rfl
  exact performs_alone hs hid hw (Arena.contains_of_get? ht) hself
    (fun k hk => get?_start_of_ne hk) (hs.modify fun _ => rfl) rfl ⟨rfl, rfl, hroom⟩ rfl

end Leaf

section Fire

variable {fire : FireState} {held : TaskId} {bullet : Task} {shotId : BulletId} {pool : Pool}

/-- What the stage depicts when the slot of a bullet is reserved. -/
theorem room_create (hp : t.pool.create = (some shotId, pool)) :
    pool.capacity = t.pool.capacity ∧ t.pool.size < t.pool.capacity ∧
      pool.store.freed = t.pool.store.freed := by
  unfold Pool.create at hp
  split at hp
  · cases hp
  · rename_i hfull
    cases hp
    refine ⟨rfl, ?_, Store.freed_insert _⟩
    simpa [Pool.isFull] using hfull

theorem resolve_eq (f : Firing) (room : Room) (cast : List Actor) :
    Play.resolve f.pattern f.task.params f.params f.fire
        ⟨f.turn.bullet.motion, f.turn.context, room, cast⟩ =
      .ok f.resolved ⟨f.turn.bullet.motion, { f.turn.context with random := f.random }, room,
        cast⟩ := by
  obtain ⟨_, _, _, ⟨bullet, direction, speed⟩, _, _⟩ := f
  cases direction with
  | none =>
    cases speed with
    | none => rfl
    | some speed => rfl
  | some direction =>
    cases speed with
    | none => rfl
    | some speed => rfl

/-- A bullet that is dropped is missing on both sides. -/
theorem performs_drop (ht : t.tasks.get? id = some task) (hk : task.kind = .fire fire)
    (hc : task.children = [held]) (hs : t.tasks.Spans task.children Y) (hid : id ∉ Y)
    (hw : t.tasks.Shows task.children below) (hh : t.tasks.get? held = some bullet)
    (hne : held ≠ id) (hd : σ.Depicts t) (hfull : t.pool.isFull = true) :
    Performs (Became id task) t σ (closed id (runKind p run id task (t.start id)))
      (Play.kind p play task.node task.params below task.kind σ) := by
  obtain ⟨motion, context, room, cast⟩ := σ
  obtain ⟨rfl, rfl, hroom⟩ := hd
  have hzero : room.places = 0 := by
    have hle : t.pool.capacity ≤ t.pool.size := by simpa [Pool.isFull] using hfull
    have hr : room.places = t.pool.capacity - t.pool.size := congrArg Room.places hroom
    omega
  have hheld : (t.start id).tasks.get? held = some bullet := (get?_start_of_ne hne).trans hh
  have hrun : runFire p id task fire (t.start id) = .ok .ended
      { t.start id with context := t.context.countDropped } := runFire_of_full hc hheld hfull
  have hself : (t.start id).tasks.get? id =
      some { task.advance .running with kind := .fire fire } := by
    rw [get?_start ht, ← hk]
    rfl
  simp only [runKind, hk, hrun]
  have hshow := hw
  rw [hc] at hshow
  obtain ⟨below', rest, rfl, _⟩ := hshow.of_live hh
  rw [Play.kind, bind_of_ok (Play.fire_of_full hzero)]
  exact performs_alone hs hid hw (Arena.contains_of_get? ht) hself
    (fun k hk => get?_start_of_ne hk) (hs.modify fun _ => rfl) rfl ⟨rfl, rfl, hroom⟩ rfl

/-- A bullet that is fired joins the cast with the tasks that were bound for it. -/
theorem performs_launch {owner : Option TaskId} {roots : List TaskId} {trees : List TaskTree}
    {tasks : Arena} {shot : Bullet} {motion : Motion}
    (ht : t.tasks.get? id = some task) (hk : task.kind = .fire fire)
    (hs : (t.start id).tasks.Spans task.children Y) (hid : id ∉ Y)
    (hw : (t.start id).tasks.Shows task.children below)
    (hr : (t.start id).tasks.Replaces tasks ∅ N) (hh : tasks.Holds owner roots trees N)
    (htasks : t₁.tasks = own id roots tasks) (hadds : t.pool.Adds t₁.pool [shot])
    (hmotion : shot.motion = motion) (hroots : shot.tasks = roots) (hd : σ₁.Depicts t₁)
    (hc : σ₁.cast = σ.cast ++ [⟨motion, TaskTree.freshAll trees⟩])
    (hnw : (t₁.close id (.ok .ended)).tasks.NoWrap) :
    Performs (Became id task) t σ (closed id (.ok .ended t₁))
      (.ok (.ended, .fire fire, below) σ₁) := by
  have hlive := Arena.contains_of_get? (get?_start ht)
  have howned : tasks.Replaces t₁.tasks N N := by
    rw [htasks]
    exact replaces_own hr.sound fun root h => hh.spans.mem_of_live h (hh.contains h)
  have hall : (t.start id).tasks.Replaces t₁.tasks ∅ N := hr.trans howned
  have hw₁ : t₁.tasks.NoWrap := noWrap_close hall.sound hnw
  have hempty := Finset.disjoint_empty_left Y
  have hfresh : id ∉ N := hall.notMem hlive (Finset.notMem_empty id)
  have hself : t₁.tasks.get? id = some { task.advance .running with kind := .fire fire } := by
    rw [hall.kept id hlive (Finset.notMem_empty id), get?_start ht, ← hk]
    rfl
  have hlive₁ := Arena.contains_of_get? hself
  apply Performs.ok
  · exact became_close hself (hs.apart hall hempty hw₁) hid (hw.apart hs hall hempty hw₁)
  · refine ⟨depicts_close hd _, _, hc, ?_⟩
    rw [pool_close, hadds.newcomers]
    refine .cons ⟨hmotion, ?_⟩ .nil
    have hspans : t₁.tasks.Spans roots N := by
      rw [htasks]
      exact spans_own hh.spans
    have hshows : t₁.tasks.Shows roots (TaskTree.freshAll trees) := by
      rw [htasks]
      exact shows_own hh.shows
    rw [hroots]
    exact hshows.beside hspans hfresh hlive₁ fun k hk => get?_close_of_ne hk _

/-- What the actions of a bullet that leaves expand to. -/
def trees (f : Firing) (id : BulletId) : EStateM.Result PatternError Random (List TaskTree) :=
  Binder.expandChildren ((⟨f.pattern, f.turn.context.rank,
    f.turn.shot id f.resolved.lastDirection f.resolved.lastSpeed⟩ : Binder).expandNode
    (maxNestDepth + 1)) f.params (shotActions f.pattern f.fire.bullet) f.random

theorem shoot_eq (f : Firing) (room : Room) (cast : List Actor) (id : BulletId) :
    Play.shoot f.pattern f.fire.bullet f.params f.resolved
        ⟨f.turn.bullet.motion, { f.turn.context with random := f.random }, room, cast⟩ =
      match trees f id with
      | .ok trees random => .ok () ⟨f.turn.bullet.motion,
          { f.turn.context with random, sequence := f.resolved }.countFired, room.take,
          cast ++ [⟨.launch f.turn.bullet.pos f.resolved.lastDirection f.resolved.lastSpeed,
            TaskTree.freshAll trees⟩]⟩
      | .error e random =>
        .error e ⟨f.turn.bullet.motion, { f.turn.context with random }, room.miss, cast⟩ := by
  have hget : (get : Play Stage)
      ⟨f.turn.bullet.motion, { f.turn.context with random := f.random }, room, cast⟩ =
    .ok _ ⟨f.turn.bullet.motion, { f.turn.context with random := f.random }, room, cast⟩ := rfl
  rw [Play.shoot, bind_of_ok hget]
  cases hx : trees f id with
  | ok trees random =>
    rw [Turn.trees, Binder.expandNode_motion] at hx
    refine (bind_of_ok (Play.orMiss_of_ok (Play.expandFor_of_ok (a := trees) (r := random)
      ?_))).trans rfl
    exact hx
  | error e random =>
    rw [Turn.trees, Binder.expandNode_motion] at hx
    refine (bind_of_error (Play.orMiss_of_error (Play.expandFor_of_error (e := e) (r := random)
      ?_))).trans rfl
    exact hx

/-- With room for its bullet, a fire plays as its bullet is shot. -/
theorem kind_of_room (f : Firing) {children : List WorkTree} {n : NodeId}
    {k : TaskKind} {ph : Phase} {room : Room} {cast : List Actor} (hr : room.places ≠ 0)
    (id : BulletId)
    (hb : below = .node n f.params k ph children :: ws) :
    Play.kind f.pattern play f.task.node f.task.params below (.fire f.fire)
        ⟨f.turn.bullet.motion, f.turn.context, room, cast⟩ =
      match trees f id with
      | .ok trees random => .ok (.ended, .fire f.fire, below) ⟨f.turn.bullet.motion,
          { f.turn.context with random, sequence := f.resolved }.countFired, room.take,
          cast ++ [⟨.launch f.turn.bullet.pos f.resolved.lastDirection f.resolved.lastSpeed,
            TaskTree.freshAll trees⟩]⟩
      | .error e random =>
        .error e ⟨f.turn.bullet.motion, { f.turn.context with random }, room.miss, cast⟩ := by
  have hfire : Play.fire f.pattern f.task.params f.fire below
      ⟨f.turn.bullet.motion, f.turn.context, room, cast⟩ =
      Play.shoot f.pattern f.fire.bullet f.params f.resolved
        ⟨f.turn.bullet.motion, { f.turn.context with random := f.random }, room, cast⟩ := by
    rw [hb, Play.fire_of_room hr, bind_of_ok (resolve_eq f room cast)]
  rw [shoot_eq f room cast id] at hfire
  rw [Play.kind]
  cases hx : trees f id with
  | ok trees random =>
    rw [hx] at hfire
    rw [bind_of_ok hfire]
    rfl
  | error e random =>
    rw [hx] at hfire
    rw [bind_of_error hfire]

/-- With room for its bullet, a fire goes the same way on both sides. -/
theorem performs_shot (f : Firing) (h : Starts False p (.task f.id) ({f.id} ∪ Y) t)
    (ht : t.tasks.get? f.id = some f.task) (hturn : f.turn = t.start f.id)
    (hk : f.task.kind = .fire f.fire) (hc : f.task.children = [held])
    (hh : t.tasks.get? held = some bullet) (hne : held ≠ f.id) (hparams : f.params = bullet.params)
    (hY : t.tasks.Spans f.task.children Y) (hid : f.id ∉ Y)
    (hw : t.tasks.Shows f.task.children below) (hd : σ.Depicts t)
    (hcreate : t.pool.create = (some shotId, pool))
    (hnw : (state (closed f.id (runFire f.pattern f.id f.task f.fire f.turn))).tasks.NoWrap) :
    Performs (Became f.id f.task) t σ
      (closed f.id (runFire f.pattern f.id f.task f.fire f.turn))
      (Play.kind f.pattern play f.task.node f.task.params below (.fire f.fire) σ) := by
  obtain ⟨hcap, hlt, hfreed⟩ := room_create hcreate
  have hreserve := h.pool.reserves_create hcreate
  have hsound : f.turn.tasks.Sound := by
    rw [hturn]
    exact h.tasks.modify
  have hheld : f.turn.tasks.get? held = some bullet := by
    rw [hturn, get?_start_of_ne hne, hh]
  have hroom : f.turn.pool.create = (some shotId, pool) := by
    rw [hturn]
    exact hcreate
  have hstage : σ = ⟨f.turn.bullet.motion, f.turn.context, σ.room, σ.cast⟩ := by
    obtain ⟨motion, context, room, cast⟩ := σ
    rw [hturn]
    exact congrArg₂ (Stage.mk · · room cast) hd.motion hd.context
  have hleft : σ.room.places ≠ 0 := by
    rw [hd.room]
    exact Nat.sub_ne_zero_of_lt hlt
  have hshow := hw
  rw [hc] at hshow
  obtain ⟨below', rest, hbelow, _⟩ := hshow.of_live hh
  rw [← hparams] at hbelow
  have hplay : Play.kind f.pattern play f.task.node f.task.params below (.fire f.fire)
    ⟨f.turn.bullet.motion, f.turn.context, σ.room, σ.cast⟩ = _ :=
      kind_of_room f hleft shotId hbelow
  rw [← hstage] at hplay
  have hbind : Binder.BindsRoots (some held) [] ∅ ⟨f.turn.tasks, f.random⟩
      (bindShot f.pattern held f.fire.bullet f.params
        (f.turn.shot shotId f.resolved.lastDirection f.resolved.lastSpeed) f.turn.context.rank
        ⟨f.turn.tasks, f.random⟩) (trees f shotId) := Binder.binds_roots _ hsound .nil
  rw [hplay]
  generalize hb : bindShot f.pattern held f.fire.bullet f.params _ _ _ = bound at hbind
  generalize trees f shotId = x at hbind
  cases hbind with
  | error hrep =>
    rw [runFire_of_unbound f hc hheld hparams hroom hb, closed]
    have hadds : t.pool.Adds (pool.remove shotId).2 [] := hreserve.remove
    refine .error ⟨⟨rfl, rfl, ?_⟩, [], (List.append_nil _).symm, ?_⟩
    · have hmiss : (pool.remove shotId).2.store.freed = t.pool.store.freed + 1 := by
        rw [hreserve.freed_remove, hfreed]
      simp only
      rw [hd.room, Pool.room, Pool.room, hadds.size, Pool.capacity_remove, hcap, hmiss,
        List.length_nil, Nat.add_zero]
      rfl
    · rw [hadds.newcomers]
      exact .nil
  | @ok roots more tasks r N hrep hhold =>
    rw [runFire_of_bound f hc hheld hparams hroom hb] at hnw ⊢
    have hadds : t.pool.Adds (pool.place { f.turn.shot shotId f.resolved.lastDirection
        f.resolved.lastSpeed with tasks := roots }) _ := hreserve.place
    rw [hturn] at hrep
    have hY₀ : (t.start f.id).tasks.Spans f.task.children Y := hY.modify fun _ => rfl
    have hw₀ : (t.start f.id).tasks.Shows f.task.children below :=
      hw.beside hY hid (Arena.contains_of_get? ht) fun k hk => get?_start_of_ne hk
    refine performs_launch ht hk hY₀ hid hw₀ hrep hhold rfl hadds rfl rfl ⟨rfl, rfl, ?_⟩ rfl hnw
    have hplace : (pool.place { f.turn.shot shotId f.resolved.lastDirection
        f.resolved.lastSpeed with tasks := roots }).store.freed = t.pool.store.freed := by
      rw [← hfreed]
      exact Store.freed_modifySlot fun _ => rfl
    simp only
    rw [hd.room, Pool.room, Pool.room, hadds.size, show (pool.place _).capacity = _ from hcap,
      hplace, List.length_singleton, Room.take, Nat.sub_sub]

/-- A fire goes the same way on both sides. -/
theorem performs_fire (h : Starts False p (.task id) X t) (ht : t.tasks.get? id = some task)
    (hf : task.isFinished = false) (hk : task.kind = .fire fire)
    (hw : t.tasks.Shows task.children below) (hd : σ.Depicts t)
    (hnw : (state (closed id (runKind p run id task (t.start id)))).tasks.NoWrap) :
    Performs (Became id task) t σ (closed id (runKind p run id task (t.start id)))
      (Play.kind p play task.node task.params below task.kind σ) := by
  obtain ⟨_, ht', hidX, hfits⟩ := h.live
  cases ht.symm.trans ht'
  obtain ⟨held, hc, hl⟩ := hfits.held hf (by rw [hk]; rfl)
  obtain ⟨bullet, hh⟩ := Arena.contains_iff.1 hl
  obtain ⟨Y, hY, hid, rfl⟩ := h.spans.of_live ht
  have hne : held ≠ id := by
    rintro rfl
    exact hid (hY.mem_of_live (hc ▸ List.mem_singleton_self _) hl)
  cases hfull : t.pool.isFull with
  | true => exact performs_drop ht hk hc hY hid hw hh hne hd hfull
  | false =>
    obtain ⟨shotId, pool, hcreate⟩ := create_of_room hfull
    simp only [runKind, hk] at hnw ⊢
    exact performs_shot ⟨p, id, task, fire, bullet.params, t.start id⟩ h ht rfl hk hc hh hne rfl hY
      hid hw hd hcreate hnw

end Fire

end Turn
end Barrage

import Barrage.Proofs.Acting

namespace Barrage

namespace Pool

/-- A bullet takes a slot, under the handle of that, unless the pool is full. -/
def accept (p : Pool) (b : Bullet) : Pool :=
  match p.create with
  | (none, p) => p
  | (some id, p) => p.place { b with id }

/-- A slot is taken in vain. -/
def waste (p : Pool) : Pool :=
  match p.create with
  | (none, p) => p
  | (some id, p) => (p.remove id).2

/-- What a turn leaves of a pool: it has fired some bullets, and may have taken a slot in vain before
it ended. -/
def receive (p : Pool) (shots : List Bullet) (vain : Bool) : Pool :=
  if vain then (shots.foldl accept p).waste else shots.foldl accept p

variable {p p' : Pool} {id : BulletId} {b : Bullet} {shots more : List Bullet} {vain : Bool}

theorem isFull_iff : p.isFull = true ↔ p.room.places = 0 := by
  simp only [isFull, decide_eq_true_eq, room]
  omega

theorem create_of_places (h : p.room.places ≠ 0) :
    ∃ id p', p.create = (some id, p') ∧ p'.room = p.room.take := by
  have hfull : p.isFull = false := Bool.eq_false_iff.2 fun hf => h (isFull_iff.1 hf)
  have hcreate : p.create = (some (p.store.insert Bullet.atRest).1, { p with
      store := (p.store.insert Bullet.atRest).2
      order := p.order.push (p.store.insert Bullet.atRest).1 }) := by
    rw [create, hfull]
    rfl
  refine ⟨_, _, hcreate, ?_⟩
  rw [room, Store.freed_insert, size, Array.size_push, ← Nat.sub_sub]
  rfl

theorem room_place (p : Pool) (b : Bullet) : (p.place b).room = p.room := by
  have hfreed : (p.place b).store.freed = p.store.freed := Store.freed_modifySlot fun _ => rfl
  rw [room, room, hfreed]
  rfl

theorem accept_of_create (h : p.create = (some id, p')) :
    p.accept b = p'.place { b with id } := by
  simp only [accept, h]

theorem waste_of_create (h : p.create = (some id, p')) : p.waste = (p'.remove id).2 := by
  simp only [waste, h]

theorem receive_append (p : Pool) (shots more : List Bullet) (vain : Bool) :
    (p.receive shots false).receive more vain = p.receive (shots ++ more) vain := by
  simp only [receive, List.foldl_append, Bool.false_eq_true, if_false]

theorem receive_cons (p : Pool) (b : Bullet) (shots : List Bullet) (vain : Bool) :
    p.receive (b :: shots) vain = (p.accept b).receive shots vain := rfl

theorem room_accept (h : p.room.places ≠ 0) : (p.accept b).room = p.room.take := by
  obtain ⟨id, p', hp, hroom⟩ := create_of_places h
  rw [accept_of_create hp, room_place, hroom]

theorem places_receive (hl : shots.length ≤ p.room.places) :
    (p.receive shots false).room.places = p.room.places - shots.length := by
  induction shots generalizing p with
  | nil => rfl
  | cons b shots ih =>
    rw [List.length_cons] at hl
    have hroom : (p.accept b).room.places = p.room.places - 1 :=
      congrArg Room.places (room_accept (by omega))
    rw [receive_cons, ih (by omega), hroom, List.length_cons]
    omega

/-- In a sound pool, the bullets that a turn has fired stand as they were fired. -/
theorem Sound.adds_receive (hs : p.Sound) (hl : shots.length + vain.toNat ≤ p.room.places) :
    ∃ bs, p.Adds (p.receive shots vain) bs ∧
      (p.receive shots vain).room.misses = p.room.misses + vain.toNat ∧
      List.Forall₂ (fun shot b => b = { shot with id := b.id }) shots bs := by
  induction shots generalizing p with
  | nil =>
    cases vain with
    | false => exact ⟨[], .refl hs, rfl, .nil⟩
    | true =>
      obtain ⟨id, p', hp, hroom⟩ := create_of_places (Nat.ne_of_gt hl)
      have hreserves := hs.reserves_create hp
      have hwaste : p.receive [] true = (p'.remove id).2 := waste_of_create hp
      rw [hwaste]
      refine ⟨[], hreserves.remove, ?_, .nil⟩
      have hmisses : p'.store.freed = p.store.freed := congrArg Room.misses hroom
      exact hreserves.freed_remove.trans (congrArg (· + 1) hmisses)
  | cons b shots ih =>
    rw [List.length_cons] at hl
    have hplaces : p.room.places ≠ 0 := by omega
    obtain ⟨id, p', hp, _⟩ := create_of_places hplaces
    have hroom : (p.accept b).room = p.room.take := room_accept hplaces
    have hadds : p.Adds (p.accept b) [{ b with id }] := by
      rw [accept_of_create hp]
      exact (hs.reserves_create hp).place
    obtain ⟨bs, hbs, hmisses, hall⟩ := ih hadds.sound (by simp only [hroom, Room.take]; omega)
    rw [hroom] at hmisses
    exact ⟨_, hadds.trans hbs, hmisses, .cons rfl hall⟩

end Pool

/-- What is bound for a bullet depends only on what can be seen of it. -/
theorem Binder.bindNode_motion (p : Pattern) (rank : Float32) (b : Bullet) (room : Nat) :
    (⟨p, rank, b⟩ : Binder).bindNode room = (⟨p, rank, b.motion.bullet⟩ : Binder).bindNode room := by
  induction room using Nat.twoStepInduction with
  | zero => rfl
  | one => rfl
  | more room ih ih' =>
    rw [bindNode, bindNode, ih, ih']
    rfl

theorem Binder.bindRoots_motion {p : Pattern} {rank : Float32} {b b' : Bullet}
    (h : b'.motion = b.motion) (owner : Option TaskId) (params : List Float32)
    (nodes : List NodeId) (roots : List TaskId) :
    (⟨p, rank, b'⟩ : Binder).bindRoots owner params nodes roots =
      (⟨p, rank, b⟩ : Binder).bindRoots owner params nodes roots := by
  have hnode : (⟨p, rank, b'⟩ : Binder).bindNode (maxNestDepth + 1) =
      (⟨p, rank, b⟩ : Binder).bindNode (maxNestDepth + 1) := by
    rw [bindNode_motion p rank b', h, ← bindNode_motion]
  induction nodes generalizing roots with
  | nil => rfl
  | cons n nodes ih =>
    rw [bindRoots, bindRoots, hnode]
    simp only [ih]

namespace Turn

/-- Two runs do the same, each to a pool of its own. -/
inductive Parallel {α : Type} (P Q : Pool) : EStateM.Result PatternError Turn α →
    EStateM.Result PatternError Turn α → Prop where
  | ok {a : α} (t : Turn) (shots : List Bullet) (hl : shots.length ≤ P.room.places) :
      Parallel P Q (.ok a { t with pool := P.receive shots false })
        (.ok a { t with pool := Q.receive shots false })
  | error {e : PatternError} (t : Turn) (shots : List Bullet) (vain : Bool)
      (hl : shots.length + vain.toNat ≤ P.room.places) :
      Parallel P Q (.error e { t with pool := P.receive shots vain })
        (.error e { t with pool := Q.receive shots vain })

/-- A run depends on the pool only by the number of places that are left in it. -/
def Detached {α : Type} (m : Run α) : Prop :=
  ∀ t Q, Q.room.places = t.pool.room.places → Parallel t.pool Q (m t) (m { t with pool := Q })

namespace Detached

variable {α β : Type} {m : Run α} {f : α → Run β}

theorem pure (a : α) : Detached (pure a) := fun t _ _ => .ok t [] (Nat.zero_le _)

theorem throw (e : PatternError) : Detached (throw e : Run α) :=
  fun t _ _ => .error t [] false (Nat.zero_le _)

theorem bind (hm : Detached m) (hf : ∀ a, Detached (f a)) : Detached (m >>= f) := by
  intro t Q hQ
  have h := hm t Q hQ
  generalize hx : m t = x at h
  generalize hy : m { t with pool := Q } = y at h
  cases h with
  | error t' shots vain hl =>
    rw [bind_of_error hx, bind_of_error hy]
    exact .error t' shots vain hl
  | @ok a t' shots hl =>
    rw [bind_of_ok hx, bind_of_ok hy]
    have hplaces : (t.pool.receive shots false).room.places =
      t.pool.room.places - shots.length := Pool.places_receive hl
    have hplaces' : (Q.receive shots false).room.places = Q.room.places - shots.length :=
      Pool.places_receive (hQ ▸ hl)
    have hnext := hf a { t' with pool := t.pool.receive shots false } (Q.receive shots false)
      (by rw [hplaces', hplaces, hQ])
    simp only at hnext
    generalize f a { t' with pool := t.pool.receive shots false } = x at hnext
    generalize f a { t' with pool := Q.receive shots false } = y at hnext
    cases hnext with
    | error t'' more vain hl' =>
      rw [Pool.receive_append, Pool.receive_append]
      refine .error t'' _ vain ?_
      rw [List.length_append]
      omega
    | ok t'' more hl' =>
      rw [Pool.receive_append, Pool.receive_append]
      refine .ok t'' _ ?_
      rw [List.length_append]
      omega

theorem known {a : α} (hf : Detached (f a)) : Detached (Pure.pure a >>= f) := hf

theorem map {g : α → β} (hm : Detached m) : Detached (g <$> m) := by
  rw [map_eq_pure_bind]
  exact hm.bind fun a => .pure (g a)

/-- What reads the turn may not look at its pool. -/
theorem read {f : Turn → Run α} (hf : ∀ t Q, f { t with pool := Q } = f t)
    (hd : ∀ t, Detached (f t)) : Detached (get >>= f) := by
  intro t Q hQ
  rw [get_bind, get_bind, hf t Q]
  exact hd t t Q hQ

theorem modify {g : Turn → Turn} (hg : ∀ t Q, g { t with pool := Q } = { g t with pool := Q }) :
    Detached (modify g : Run Unit) := by
  intro t Q _
  have h : Parallel t.pool Q (.ok () { g t with pool := t.pool }) (.ok () { g t with pool := Q }) :=
    .ok (g t) [] (Nat.zero_le _)
  rw [← hg t t.pool, ← hg t Q] at h
  exact h

end Detached

section Steps

variable {α : Type} (p : Pattern) (id : TaskId)

theorem detached_task : Detached (Turn.task id) := by
  apply Detached.read fun _ _ => rfl
  intro t
  cases t.tasks.get? id with
  | none => exact .throw _
  | some task => exact .pure task

theorem detached_modifyTask (f : Task → Task) : Detached (modifyTask id f) :=
  .modify fun _ _ => rfl

theorem detached_isVanished : Detached isVanished := .read (fun _ _ => rfl) fun _ => .pure _

theorem detached_eval (node : NodeId) (params : List Float32) :
    Detached (eval p node params) := by
  intro t Q _
  exact .ok { t with context := { t.context with
    random := (p.evalNode node (t.context.scope params t.bullet) t.context.random).2 } } []
      (Nat.zero_le _)

theorem detached_bindFor (b : Bullet) (step : Binder → Binding α) :
    Detached (bindFor p b step) := by
  intro t Q _
  unfold bindFor
  cases step ⟨p, t.context.rank, b⟩ ⟨t.tasks, t.context.random⟩ with
  | ok a s => exact .ok { t with tasks := s.tasks, context := _ } [] (Nat.zero_le _)
  | error e s => exact .error { t with tasks := s.tasks, context := _ } [] false (Nat.zero_le _)

end Steps

section Leaf

variable (p : Pattern) (id : TaskId) (task : Task)

/-- A ramp has been found, and is followed for one frame. -/
theorem detached_ramp (kind : TaskKind) (push : Bullet → Bullet) (status : Status) :
    Detached (do
      setKind id kind
      modifyBullet push
      pure status : Run Status) :=
  (detached_modifyTask id _).bind fun _ => (Detached.modify fun _ _ => rfl).bind fun _ => .pure _

theorem detached_runWait (remaining : Option UInt32) :
    Detached (runWait p id task remaining) := by
  have counted (n : UInt32) : Detached (do
      if n == 0 then
        setKind id (.wait (some 0))
        pure .ended
      else
        setKind id (.wait (some (n - 1)))
        pure .paused : Run Status) := by
    split
    · exact (detached_modifyTask id _).bind fun _ => .pure _
    · exact (detached_modifyTask id _).bind fun _ => .pure _
  cases remaining with
  | some n => exact counted n
  | none => exact (detached_eval p task.node task.params).map.bind counted

theorem detached_runChangeDirection (change : ChangeState) :
    Detached (runChangeDirection p id task change) := by
  unfold runChangeDirection
  cases change.ramp with
  | some ramp => exact .known (detached_ramp id _ _ _)
  | none =>
    refine (detached_eval p _ _).bind fun _ => (detached_eval p _ _).bind fun _ => ?_
    exact .read (fun _ _ => rfl) fun _ => .known (detached_ramp id _ _ _)

theorem detached_runChangeSpeed (change : ChangeState) :
    Detached (runChangeSpeed p id task change) := by
  unfold runChangeSpeed
  cases change.ramp with
  | some ramp => exact .known (detached_ramp id _ _ _)
  | none =>
    refine (detached_eval p _ _).bind fun _ => (detached_eval p _ _).bind fun _ => ?_
    exact .read (fun _ _ => rfl) fun _ => .known (detached_ramp id _ _ _)

theorem detached_axisRamp (params : List Float32) (current : Float32) (term : UInt32)
    (axis : Option NodeId) : Detached (axisRamp p params current term axis) := by
  cases axis with
  | none => exact .pure 0
  | some node => exact (detached_eval p node params).bind fun _ => .pure _

theorem detached_runAccel (accel : AccelState) : Detached (runAccel p id task accel) := by
  unfold runAccel
  cases accel.ramp with
  | some ramp => exact .known (detached_ramp id _ _ _)
  | none =>
    refine .read (fun _ _ => rfl) fun _ => (detached_eval p _ _).bind fun _ => ?_
    exact (detached_axisRamp p _ _ _ _).bind fun _ => (detached_axisRamp p _ _ _ _).bind fun _ =>
      .known (detached_ramp id _ _ _)

variable {p id task} {t : Turn} {Q : Pool} {fire : FireState} {held : TaskId} {rest : List TaskId}
  {bullet : Task}

/-- Where there is a place in both pools, a fire takes one in each. Which handle its bullet is given
does not matter for what is bound. -/
theorem parallel_fire (hc : task.children = held :: rest) (hh : t.tasks.get? held = some bullet)
    (hQ : Q.room.places = t.pool.room.places) (hr : t.pool.room.places ≠ 0) :
    Parallel t.pool Q (runFire p id task fire t) (runFire p id task fire { t with pool := Q }) := by
  obtain ⟨shotId, pool, hp, _⟩ := Pool.create_of_places hr
  obtain ⟨shotId', pool', hp', _⟩ := Pool.create_of_places (p := Q) (by rwa [hQ])
  let f : Firing := ⟨p, id, task, fire, bullet.params, t⟩
  let f' : Firing := ⟨p, id, task, fire, bullet.params, { t with pool := Q }⟩
  let shot (k : BulletId) : Bullet := t.shot k f.resolved.lastDirection f.resolved.lastSpeed
  have hsame : bindShot p held fire.bullet bullet.params (shot shotId') t.context.rank =
      bindShot p held fire.bullet bullet.params (shot shotId) t.context.rank := by
    have hmotion : (shot shotId').motion = (shot shotId).motion := rfl
    exact Binder.bindRoots_motion hmotion ..
  have hone : 1 ≤ t.pool.room.places := Nat.one_le_iff_ne_zero.2 hr
  cases hb : bindShot p held fire.bullet bullet.params (shot shotId) t.context.rank
      ⟨t.tasks, f.random⟩ with
  | error e s =>
    have hb' := (congrFun hsame _).trans hb
    have hrun := runFire_of_unbound f hc hh rfl hp hb
    have hrun' := runFire_of_unbound f' hc hh rfl hp' hb'
    rw [← Pool.waste_of_create hp] at hrun
    rw [← Pool.waste_of_create hp'] at hrun'
    rw [hrun, hrun']
    exact .error { t with tasks := s.tasks, context := { t.context with random := s.random } } []
      true hone
  | ok roots s =>
    have hb' := (congrFun hsame _).trans hb
    have hrun := runFire_of_bound f hc hh rfl hp hb
    have hrun' := runFire_of_bound f' hc hh rfl hp' hb'
    have haccept : t.pool.accept { shot shotId with tasks := roots } =
      pool.place { shot shotId with tasks := roots } := Pool.accept_of_create hp
    have haccept' : Q.accept { shot shotId with tasks := roots } =
      pool'.place { f'.turn.shot shotId' f'.resolved.lastDirection f'.resolved.lastSpeed with
        tasks := roots } := Pool.accept_of_create hp'
    rw [← haccept] at hrun
    rw [← haccept'] at hrun'
    rw [hrun, hrun']
    exact .ok { t with
      tasks := own id roots s.tasks
      context := { t.context with random := s.random, sequence := f.resolved }.countFired }
        [{ shot shotId with tasks := roots }] hone

variable (p id task fire)

theorem detached_runFire : Detached (runFire p id task fire) := by
  intro t Q hQ
  cases hc : task.children with
  | nil =>
    simp only [runFire, hc]
    exact .error t [] false (Nat.zero_le _)
  | cons held rest =>
    cases hh : t.tasks.get? held with
    | none =>
      have hh' : ({ t with pool := Q } : Turn).tasks.get? held = none := hh
      simp only [runFire, hc]
      rw [bind_of_error (task_of_none hh), bind_of_error (task_of_none hh')]
      exact .error t [] false (Nat.zero_le _)
    | some bullet =>
      by_cases hfull : t.pool.room.places = 0
      · rw [runFire_of_full hc hh (Pool.isFull_iff.2 hfull),
          runFire_of_full (t := { t with pool := Q }) hc hh (Pool.isFull_iff.2 (hQ.trans hfull))]
        exact .ok { t with context := t.context.countDropped } [] (Nat.zero_le _)
      · exact parallel_fire hc hh hQ hfull

end Leaf

section Task

variable (p : Pattern) {run : TaskId → Run Status} (hr : ∀ id, Detached (run id))

include hr in
theorem detached_runSequence (ids : List TaskId) (status : Status) :
    Detached (runSequence run ids status) := by
  induction ids generalizing status with
  | nil => exact .pure status
  | cons id ids ih =>
    refine .read (fun _ _ => rfl) fun t => ?_
    split
    · exact ih status
    · refine (hr id).bind fun answer => ?_
      cases answer with
      | paused => exact .pure _
      | ongoing =>
        refine detached_isVanished.bind fun vanished => ?_
        split
        · exact .pure _
        · exact ih _
      | ended =>
        refine detached_isVanished.bind fun vanished => ?_
        split
        · exact .pure _
        · exact ih _

theorem detached_repeatTimes (id : TaskId) (task : Task) (state : RepeatState) :
    Detached (repeatTimes p id task state) := by
  unfold repeatTimes
  cases state.times with
  | some times => exact .pure times
  | none =>
    have found (wanted : UInt32) : Detached (do
        let times := if maxRepeat < wanted then maxRepeat else wanted
        if maxRepeat < wanted then notify (.repeatClamped p.name task.node wanted maxRepeat)
        setKind id (.repeat { state with times := some times })
        pure times : Run UInt32) := by
      simp only
      split
      · exact (Detached.modify fun _ _ => rfl).bind fun _ =>
          (detached_modifyTask id _).bind fun _ => .pure _
      · exact (detached_modifyTask id _).bind fun _ => .pure _
    cases p.child? task.node .times with
    | none => exact found 0
    | some node => exact (detached_eval p node task.params).map.bind found

theorem detached_finishBody (id body : TaskId) : Detached (finishBody id body) :=
  (Detached.modify fun _ _ => rfl).bind fun _ => (detached_task id).bind fun _ =>
    (detached_modifyTask id _).bind fun _ => .pure _

include hr in
theorem detached_runBodies (room : Nat) (id : TaskId) (left : Nat) :
    Detached (runBodies p run room id left) := by
  induction left with
  | zero =>
    refine (detached_task id).bind fun task => ?_
    cases task.children with
    | nil => exact .known (.pure _)
    | cons body rest => exact (Detached.modify fun _ _ => rfl).bind fun _ => .pure _
  | succ left ih =>
    refine (detached_task id).bind fun task => ?_
    cases task.children with
    | nil => exact .pure _
    | cons body rest =>
      refine (hr body).bind fun answer => ?_
      cases answer with
      | paused => exact .pure _
      | ongoing => exact .pure _
      | ended =>
        refine (detached_finishBody id body).bind fun task => ?_
        refine detached_isVanished.bind fun vanished => ?_
        split
        · exact .pure _
        · refine .read (fun _ _ => rfl) fun t => ?_
          exact (detached_bindFor p _ _).bind fun fresh => (detached_modifyTask id _).bind fun _ => ih

include hr in
theorem detached_runKind (id : TaskId) (task : Task) : Detached (runKind p run id task) := by
  unfold runKind
  cases task.kind with
  | action => exact detached_runSequence hr _ _
  | bullet => exact detached_runSequence hr _ _
  | «repeat» state =>
    exact (detached_repeatTimes p id task state).bind fun _ => detached_runBodies p hr _ id _
  | fire state => exact detached_runFire p id task state
  | changeDirection state => exact detached_runChangeDirection p id task state
  | changeSpeed state => exact detached_runChangeSpeed p id task state
  | accel state => exact detached_runAccel p id task state
  | wait remaining => exact detached_runWait p id task remaining
  | vanish => exact (Detached.modify fun _ _ => rfl).bind fun _ => .pure _

theorem detached_runTask (fuel : Nat) (id : TaskId) : Detached (runTask p fuel id) := by
  induction fuel generalizing id with
  | zero => exact .throw _
  | succ fuel ih =>
    refine (detached_task id).bind fun task => ?_
    split
    · exact .pure _
    · refine (detached_modifyTask id _).bind fun _ => (detached_runKind p ih id task).bind ?_
      intro status
      split
      · exact (detached_modifyTask id _).bind fun _ => .pure _
      · exact .pure _

end Task

/-- Two turns do the same, each to a pool of its own. -/
structure Matched (P Q : Pool) (t t' : Turn) (shots : List Bullet) (vain : Bool) : Prop where
  room : shots.length + vain.toNat ≤ P.room.places
  pool : t.pool = P.receive shots vain
  other : t' = { t with pool := Q.receive shots vain }

/-- What follows the bullets that were fired first. -/
theorem Matched.prepend {P Q : Pool} {t t' : Turn} {shots more : List Bullet} {vain : Bool}
    (h : Matched (P.receive shots false) (Q.receive shots false) t t' more vain)
    (hl : shots.length ≤ P.room.places) : Matched P Q t t' (shots ++ more) vain where
  room := by
    have hroom := h.room
    rw [Pool.places_receive hl] at hroom
    rw [List.length_append]
    omega
  pool := by rw [h.pool, Pool.receive_append]
  other := by rw [h.other, Pool.receive_append]

/-- The turn of a bullet depends on the pool only by the number of places that are left in it. -/
theorem matched_runRoots (p : Pattern) (kept roots : List TaskId) (t : Turn) {Q : Pool}
    (hQ : Q.room.places = t.pool.room.places) :
    ∃ shots vain, Matched t.pool Q (runRoots p kept roots t)
      (runRoots p kept roots { t with pool := Q }) shots vain := by
  induction roots generalizing kept t Q with
  | nil => exact ⟨[], false, Nat.zero_le _, rfl, rfl⟩
  | cons root rest ih =>
    have h := detached_runTask p maxTaskChain root t Q hQ
    generalize hx : runTask p maxTaskChain root t = x at h
    generalize hy : runTask p maxTaskChain root { t with pool := Q } = y at h
    cases h with
    | error t' shots vain hl =>
      rw [runRoots_of_error hx, runRoots_of_error hy]
      exact ⟨shots, vain, hl, rfl, rfl⟩
    | @ok status t' shots hl =>
      have hplaces : (Q.receive shots false).room.places =
          (t.pool.receive shots false).room.places := by
        rw [Pool.places_receive hl, Pool.places_receive (hQ ▸ hl), hQ]
      by_cases he : status = .ended
      · subst he
        rw [runRoots_of_ended hx, runRoots_of_ended hy]
        simp only
        split
        · exact ⟨shots, false, hl, rfl, rfl⟩
        · obtain ⟨more, vain, hm⟩ := ih kept
            (dismiss root (kept ++ rest) { t' with pool := t.pool.receive shots false }) hplaces
          exact ⟨_, vain, hm.prepend hl⟩
      · rw [runRoots_of_stays hx he, runRoots_of_stays hy he]
        simp only
        split
        · exact ⟨shots, false, hl, rfl, rfl⟩
        · obtain ⟨more, vain, hm⟩ := ih (kept ++ [root])
            { t' with pool := t.pool.receive shots false } hplaces
          exact ⟨_, vain, hm.prepend hl⟩

/-- A turn depends on the pool only by the number of places that are left in it. -/
theorem matched_runTasks (t : Turn) {Q : Pool} (hQ : Q.room.places = t.pool.room.places) :
    ∃ shots vain, Matched t.pool Q t.runTasks (runTasks { t with pool := Q }) shots vain := by
  unfold runTasks
  cases t.bullet.pattern with
  | none => exact ⟨[], false, Nat.zero_le _, rfl, rfl⟩
  | some p => exact matched_runRoots p [] t.bullet.tasks t hQ

end Turn
end Barrage

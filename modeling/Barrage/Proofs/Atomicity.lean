import Barrage.Proofs.Depth
import Barrage.Proofs.Entering
import Barrage.Proofs.Scoping
import Barrage.Proofs.Sequence
import Barrage.Proofs.Shows

namespace Barrage

namespace Pool

/-- `p'` holds the bullets of `p` in their order. Only the slots that are free may differ. -/
structure SameBullets (p p' : Pool) : Prop where
  ids : p'.ids = p.ids
  bullets : p'.bullets = p.bullets
  get? : ∀ k, p'.get? k = p.get? k
  capacity : p'.capacity = p.capacity

/-- `p'` holds one bullet more than `p`, which stands last and has a handle of its own. -/
structure Gains (p p' : Pool) (b : Bullet) : Prop where
  fresh : b.id ∉ p.ids
  ids : p'.ids = p.ids ++ [b.id]
  bullets : p'.bullets = p.bullets ++ [b]
  get? : ∀ k, p'.get? k = if k = b.id then some b else p.get? k
  capacity : p'.capacity = p.capacity

variable {p p' : Pool} {b : Bullet} {id k : BulletId} {shots : List Bullet}

theorem Sound.get?_of_notMem (h : p.Sound) (hk : k ∉ p.ids) : p.get? k = none := by
  cases hg : p.get? k with
  | none => rfl
  | some b => exact absurd (h.listed k b hg).1 hk

theorem Adds.get?_of_notMem (h : p.Adds p' shots) (hs : p.Sound)
    (hk : k ∉ shots.map Bullet.id) : p'.get? k = p.get? k := by
  by_cases hm : k ∈ p.ids
  · exact get?_eq_of_slot? (h.kept k hm)
  · have hn : k ∉ p'.ids := by
      rw [h.ids, List.mem_append, not_or]
      exact ⟨hm, hk⟩
    rw [h.sound.get?_of_notMem hn, hs.get?_of_notMem hm]

theorem Adds.sameBullets (h : p.Adds p' []) (hs : p.Sound) (hc : p'.capacity = p.capacity) :
    p.SameBullets p' where
  ids := by rw [h.ids, List.map_nil, List.append_nil]
  bullets := by rw [h.bullets, List.append_nil]
  get? _ := h.get?_of_notMem hs List.not_mem_nil
  capacity := hc

theorem Adds.gains (h : p.Adds p' [b]) (hs : p.Sound) (hc : p'.capacity = p.capacity) :
    p.Gains p' b where
  fresh hm := by
    have hn := h.sound.nodup
    rw [h.ids] at hn
    exact (List.nodup_append.1 hn).2.2 b.id hm b.id (List.mem_singleton_self _) rfl
  ids := h.ids
  bullets := h.bullets
  get? k := by
    split
    · rename_i hk
      rw [hk]
      exact h.added b (List.mem_singleton_self b)
    · rename_i hk
      exact h.get?_of_notMem hs fun hm => hk (List.mem_singleton.1 hm)
  capacity := hc

theorem capacity_create (h : p.create = (some id, p')) : p'.capacity = p.capacity := by
  unfold create at h
  split at h
  · cases h
  · cases h
    rfl

end Pool

namespace Arena

variable {a : Arena} {owner : Option TaskId} {fire : TaskId} {cs : List TaskId}
  {trees : List TaskTree} {X : Finset TaskId}

/-- The roots of some trees change hands. -/
theorem Holds.own (h : a.Holds owner cs trees X) (hs : a.Sound) :
    (Turn.own fire cs a).Holds (some fire) cs trees X := by
  induction cs generalizing a trees X with
  | nil =>
    cases h
    exact .nil
  | cons c cs ih =>
    cases h with
    | @cons _ _ _ children node params kind below rest X Y ht hc hX hrest hd =>
      have hmod := hs.replaces_modify (f := fun task => { task with owner := some fire })
        (Finset.mem_singleton_self c)
      have hY : c ∉ Y := Finset.disjoint_left.1 hd (Finset.mem_union_left _
        (Finset.mem_singleton_self c))
      have hrest' := hrest.apart hmod (Finset.disjoint_singleton_left.2 hY)
      -- the other roots are changed after this one, which lies apart from them
      have howns : (a.modify c _).Replaces (Turn.own fire (c :: cs) a) Y Y :=
        Turn.replaces_own hmod.sound fun root hroot => hrest'.root_mem hroot
      have hc' := (hc.apart hmod (Finset.disjoint_singleton_left.2 hX)).apart howns
        (Finset.disjoint_union_left.1 hd).2.symm
      have hself : (a.modify c fun task => { task with owner := some fire }).get? c =
          some ⟨node, some fire, children, params, kind, .parsed⟩ := by
        rw [get?_modify, if_pos rfl, ht]
        rfl
      have hroot := (howns.kept c (contains_of_get? hself) hY).trans hself
      exact .cons hroot hc' hX (ih hrest' hmod.sound) hd

end Arena

namespace Turn

variable {t : Turn} {id held : TaskId} {task : Task} {fire : FireState} {shotId : BulletId}
  {pool : Pool} {s : BindState}

/-- Nothing has come of a step but that random numbers were drawn. -/
structure Restores (t t' : Turn) : Prop where
  bullet : t'.bullet = t.bullet
  tasks : t.tasks.SameTasks t'.tasks
  pool : t.pool.SameBullets t'.pool
  context : t'.context = { t.context with random := t'.context.random }
  notices : t'.notices = t.notices

/-- A bullet has left as a fire has resolved, and nothing else has changed: its roots are the
actions of the bullet in document order, bound with the parameters held for it, and belong to the
fire. -/
structure Launches (f : Firing) (shot : Bullet) (t' : Turn) : Prop where
  pos : shot.pos = f.turn.bullet.pos
  pattern : shot.pattern = f.turn.bullet.pattern
  direction : shot.direction = Angle.toRadians f.resolved.lastDirection
  speed : shot.speed = f.resolved.lastSpeed
  rest : shot.extraVelocity = .zero ∧ shot.age = 0 ∧ shot.vanished = false
  bullet : t'.bullet = f.turn.bullet
  pool : f.turn.pool.Gains t'.pool shot
  tasks : ∃ trees,
    (⟨f.pattern, f.turn.context.rank, { shot with tasks := [] }⟩ : Binder).DenotesAll
      (maxNestDepth + 1) (.initial f.params) (shotActions f.pattern f.fire.bullet) f.random trees
      t'.context.random ∧
    f.turn.tasks.Plants t'.tasks (some f.id) shot.tasks (ScopedTree.eraseAll trees)
  context : t'.context = { f.turn.context with
    random := t'.context.random
    sequence := f.resolved }.countFired
  notices : t'.notices = f.turn.notices

/-- A fire does all it is for or nothing: it drops its bullet if the pool is full, answers the fault
of binding the bullet's actions and takes everything back, or launches the bullet. -/
def FiresWhole (p : Pattern) (id : TaskId) (task : Task) (fire : FireState) (t : Turn) : Prop :=
  ∃ held bullet, task.children = [held] ∧ t.tasks.get? held = some bullet ∧
    let f : Firing := ⟨p, id, task, fire, bullet.params, t⟩
    (t.pool.isFull = true →
      runFire p id task fire t = .ok .ended { t with context := t.context.countDropped }) ∧
    (t.pool.isFull = false → ∃ shotId : BulletId,
      let shot := t.shot shotId f.resolved.lastDirection f.resolved.lastSpeed
      let bound := bindShot p held fire.bullet bullet.params shot t.context.rank
        ⟨t.tasks, f.random⟩
      (∀ e s, bound = .error e s → ∃ t', runFire p id task fire t = .error e t' ∧ t.Restores t') ∧
      ∀ roots s, bound = .ok roots s → ∃ t', runFire p id task fire t = .ok .ended t' ∧
        Launches f { shot with tasks := roots } t')

theorem restores_misfire {e : PatternError} (f : Firing) (hs : f.turn.tasks.Sound)
    (hp : f.turn.pool.Sound) (hc : f.turn.pool.create = (some shotId, pool))
    {direction speed : Float32}
    (hb : bindShot f.pattern held f.fire.bullet f.params (f.turn.shot shotId direction speed)
      f.turn.context.rank ⟨f.turn.tasks, f.random⟩ = .error e s) :
    f.turn.Restores { f.turn with
      tasks := s.tasks
      pool := (pool.remove shotId).2
      context := { f.turn.context with random := s.random } } where
  bullet := rfl
  tasks := (Binder.bindRoots_error (g := False) (s := ⟨f.turn.tasks, f.random⟩) hs hb nofun
    nofun).1.sameTasks
  pool := (hp.reserves_create hc).remove.sameBullets hp
    ((Pool.capacity_remove shotId).trans (Pool.capacity_create hc))
  context := rfl
  notices := rfl

theorem launches_shot {roots : List TaskId} (f : Firing) (hs : f.turn.tasks.Sound)
    (hp : f.turn.pool.Sound) (hc : f.turn.pool.create = (some shotId, pool))
    (hb : bindShot f.pattern held f.fire.bullet f.params
      (f.turn.shot shotId f.resolved.lastDirection f.resolved.lastSpeed) f.turn.context.rank
      ⟨f.turn.tasks, f.random⟩ = .ok roots s) :
    Launches f { f.turn.shot shotId f.resolved.lastDirection f.resolved.lastSpeed with
        tasks := roots } { f.turn with
      tasks := own f.id roots s.tasks
      pool := pool.place { f.turn.shot shotId f.resolved.lastDirection f.resolved.lastSpeed with
        tasks := roots }
      context := { f.turn.context with
        random := s.random
        sequence := f.resolved }.countFired } where
  pos := rfl
  pattern := rfl
  direction := rfl
  speed := rfl
  rest := ⟨rfl, rfl, rfl⟩
  bullet := rfl
  pool := by
    have hr : f.turn.pool.Reserves pool
        ({ f.turn.shot shotId f.resolved.lastDirection f.resolved.lastSpeed with
          tasks := roots } : Bullet).id := hp.reserves_create hc
    have hcapacity : pool.capacity = f.turn.pool.capacity := Pool.capacity_create hc
    exact hr.place.gains hp hcapacity
  tasks := by
    obtain ⟨trees, X, hd, hr, hh⟩ :=
      Binder.roots_bound_as_denoted (s := ⟨f.turn.tasks, f.random⟩) hs hb
    have hown : s.tasks.Replaces (own f.id roots s.tasks) X X :=
      replaces_own hr.sound fun root hroot => hh.root_mem hroot
    exact ⟨trees, hd, (hr.trans hown).plants (hh.own hr.sound)⟩
  context := rfl
  notices := rfl

/-- Where every fire holds its bullet, each fire does all or nothing. -/
theorem Armed.firesWhole (h : t.Armed) (p : Pattern) (ht : t.tasks.get? id = some task)
    (hf : task.isFinished = false) (hk : task.kind = .fire fire) : t.FiresWhole p id task fire := by
  obtain ⟨held, bullet, hc, hb⟩ := h.held id task fire ht hf hk
  refine ⟨held, bullet, hc, hb, fun hfull => runFire_of_full hc hb hfull, ?_⟩
  intro hroom
  obtain ⟨shotId, pool, hcreate⟩ := create_of_room hroom
  let f : Firing := ⟨p, id, task, fire, bullet.params, t⟩
  refine ⟨shotId, ?_, ?_⟩
  · intro e s hbound
    have hrun := runFire_of_unbound f hc hb rfl hcreate hbound
    exact ⟨_, hrun, restores_misfire f h.tasks h.pool hcreate hbound⟩
  · intro roots s hbound
    have hrun := runFire_of_bound f hc hb rfl hcreate hbound
    exact ⟨_, hrun, launches_shot f h.tasks h.pool hcreate hbound⟩

end Turn

namespace Simulation

variable {issued : List BulletId} {s : Simulation} {p : Pattern} {pos : Point}

/-- A pattern could not be started, and nothing is left of the attempt but the random numbers that
it drew and a notice of it. -/
structure Abandons (s : Simulation) (p : Pattern) (e : PatternError) (s' : Simulation) : Prop where
  pool : s.pool.SameBullets s'.pool
  tasks : s.tasks.SameTasks s'.tasks
  context : s'.context = { s.context with random := s'.context.random }
  notices : s'.notices = s.notices ∨ s'.notices = s.notices.push (.activationFailed p.name e)
  rest : s' = { s with
    pool := s'.pool, tasks := s'.tasks, context := s'.context, notices := s'.notices }

/-- A pattern was started, and nothing else has changed: a bullet rests at the given position, whose
roots are the top actions in document order, bound without parameters and under no owner. -/
structure Activates (s : Simulation) (p : Pattern) (pos : Point) (emitter : Bullet)
    (s' : Simulation) : Prop where
  placed : emitter.pos = pos ∧ emitter.direction = 0 ∧ emitter.speed = 0
  pattern : emitter.pattern = some p
  fresh : emitter.extraVelocity = .zero ∧ emitter.age = 0 ∧ emitter.vanished = false
  pool : s.pool.Gains s'.pool emitter
  tasks : ∃ trees,
    (⟨p, s.context.rank, { emitter with tasks := [] }⟩ : Binder).DenotesAll (maxNestDepth + 1)
      (.initial []) p.topActions s.context.random trees s'.context.random ∧
    s.tasks.Plants s'.tasks none emitter.tasks (ScopedTree.eraseAll trees)
  context : s'.context = { s.context with random := s'.context.random }
  rest : s' = { s with pool := s'.pool, tasks := s'.tasks, context := s'.context }

theorem abandons_unbound {id : BulletId} {pool : Pool} {e : PatternError} {b : BindState}
    (hs : s.tasks.Sound) (hp : s.pool.Sound) (hc : s.pool.create = (some id, pool))
    (hb : (⟨p, s.context.rank, { Bullet.atRest id with pos, pattern := some p }⟩ :
      Binder).bindRoots none [] p.topActions [] ⟨s.tasks, s.context.random⟩ = .error e b) :
    s.Abandons p e { s with
      pool := ((pool.take id).2.remove id).2
      tasks := b.tasks
      context := { s.context with random := b.random }
      notices := s.notices.push (.activationFailed p.name e) } where
  pool := by
    have hcapacity : pool.capacity = s.pool.capacity := Pool.capacity_create hc
    exact (hp.reserves_create hc).take.remove.sameBullets hp
      ((Pool.capacity_remove id).trans hcapacity)
  tasks := (Binder.bindRoots_error (g := False) (s := ⟨s.tasks, s.context.random⟩) hs hb nofun
    nofun).1.sameTasks
  context := rfl
  notices := .inr rfl
  rest := rfl

theorem activates_bound {id : BulletId} {pool : Pool} {roots : List TaskId} {b : BindState}
    (hs : s.tasks.Sound) (hp : s.pool.Sound) (hc : s.pool.create = (some id, pool))
    (hb : (⟨p, s.context.rank, { Bullet.atRest id with pos, pattern := some p }⟩ :
      Binder).bindRoots none [] p.topActions [] ⟨s.tasks, s.context.random⟩ = .ok roots b) :
    s.Activates p pos { Bullet.atRest id with pos, pattern := some p, tasks := roots } { s with
      pool := (pool.take id).2.place
        { Bullet.atRest id with pos, pattern := some p, tasks := roots }
      tasks := b.tasks
      context := { s.context with random := b.random } } where
  placed := ⟨rfl, rfl, rfl⟩
  pattern := rfl
  fresh := ⟨rfl, rfl, rfl⟩
  pool := by
    have hr : s.pool.Reserves (pool.take id).2
        ({ Bullet.atRest id with pos, pattern := some p, tasks := roots } : Bullet).id :=
      (hp.reserves_create hc).take
    have hcapacity : pool.capacity = s.pool.capacity := Pool.capacity_create hc
    exact hr.place.gains hp hcapacity
  tasks := by
    obtain ⟨trees, X, hd, hr, hh⟩ :=
      Binder.roots_bound_as_denoted (s := ⟨s.tasks, s.context.random⟩) hs hb
    exact ⟨trees, hd, hr.plants hh⟩
  context := rfl
  rest := rfl

/-- Starting a pattern does all it is for or nothing. -/
theorem spawn_cases (hs : s.tasks.Sound) (hp : s.pool.Sound) (p : Pattern) (pos : Point) :
    (∃ e s', s.spawn p pos = (.error e, s') ∧ s.Abandons p e s') ∨
    s.spawn p pos = (.ok none, { s with context := s.context.countDropped }) ∨
    ∃ emitter s', s.spawn p pos = (.ok (some emitter.id), s') ∧ s.Activates p pos emitter s' := by
  unfold spawn
  split
  · refine .inl ⟨_, s, rfl, ?_, ⟨fun _ => rfl, rfl⟩, rfl, .inl rfl, rfl⟩
    exact ⟨rfl, rfl, fun _ => rfl, rfl⟩
  · rcases hp.create with ⟨_, hc⟩ | ⟨id, pool, _, hc, _⟩
    · rw [hc]
      exact .inr (.inl rfl)
    · rw [hc]
      simp only [activate]
      cases hb : (⟨p, s.context.rank, { Bullet.atRest id with pos, pattern := some p }⟩ :
          Binder).bindRoots none [] p.topActions [] ⟨s.tasks, s.context.random⟩ with
      | error e b => exact .inl ⟨e, _, rfl, abandons_unbound hs hp hc hb⟩
      | ok roots b =>
        exact .inr (.inr ⟨{ Bullet.atRest id with pos, pattern := some p, tasks := roots }, _, rfl,
          activates_bound hs hp hc hb⟩)

/-- Whenever a task is entered in a frame, each fire that is live and not over does all it is for
or nothing, whichever bullet it belongs to: a drop, a fault and a shot each leave all else as it
was. -/
theorem fires_are_atomic (h : Reachable (fun _ => True) issued s) (dt : Float32)
    (hw : (s.update dt).NoWrap) :
    (∃ calls, Ticks (dt * referenceFps) { s with frame := s.frame + 1 } s.pool.ids calls
      (s.ticked dt)) ∧
    ∀ calls, Ticks (dt * referenceFps) { s with frame := s.frame + 1 } s.pool.ids calls
        (s.ticked dt) →
      ∀ c ∈ calls, ∀ t ∈ [c.before, c.before.start c.task], ∀ p id task fire,
        t.tasks.get? id = some task → task.isFinished = false → task.kind = .fire fire →
        t.FiresWhole p id task fire := by
  obtain ⟨ho, _, _⟩ := h.inOrder
  obtain ⟨_, hw'⟩ := ho.update_eq nofun hw.2
  refine ⟨ho.trace nofun hw', ?_⟩
  intro calls hticks c hc t ht p id task fire hget hfin hk
  have harmed : c.before.Armed := hticks.armed ho.begin nofun hw' hc
  have harmed' : t.Armed := by
    rcases List.mem_pair.1 ht with rfl | rfl
    · exact harmed
    · exact harmed.start c.task
  exact harmed'.firesWhole p hget hfin hk

theorem spark_fires_are_atomic :
    lit.pool.ids = [⟨0, 0⟩] ∧ (lit.update 0).NoWrap ∧
      ∃ calls c task fire,
        Ticks (0 * referenceFps) { lit with frame := lit.frame + 1 } lit.pool.ids calls
          (lit.ticked 0) ∧
        c ∈ calls ∧ c.before.tasks.get? ⟨1, 0⟩ = some task ∧ task.isFinished = false ∧
        task.kind = .fire fire ∧ c.before.FiresWhole .spark ⟨1, 0⟩ task fire := by
  have hids : lit.pool.ids = [⟨0, 0⟩] := by decide +kernel
  have hw : (lit.update 0).NoWrap := by decide +kernel
  refine ⟨hids, hw, ?_⟩
  obtain ⟨⟨calls, ht⟩, hall⟩ := fires_are_atomic (reachable_lit trivial) 0 hw
  have ht' := ht
  rw [hids] at ht'
  obtain ⟨c, hc, hbefore⟩ := ht'.begins rfl rfl rfl rfl
  have hfire : ∃ task fire, c.before.tasks.get? ⟨1, 0⟩ = some task ∧ task.isFinished = false ∧
      task.kind = .fire fire := by
    rw [hbefore]
    exact ⟨_, _, rfl, rfl, rfl⟩
  obtain ⟨task, fire, hget, hfin, hk⟩ := hfire
  have hwhole := hall calls ht c hc c.before List.mem_cons_self .spark _ task fire hget hfin hk
  exact ⟨calls, c, task, fire, ht, hc, hget, hfin, hk, hwhole⟩

end Simulation

/-- A pattern that fires one bullet, whose reference leads nowhere. -/
def Pattern.dud : Pattern :=
  let p := ((ofName "dud").addNode root .action).2
  let p := (p.setLabel ⟨1⟩ "top").1
  let p := (p.addNode ⟨1⟩ .fire).2
  let p := (p.addNode ⟨2⟩ .bullet).2
  let p := (p.addNode ⟨3⟩ .actionRef).2
  (p.setLabel ⟨4⟩ "missing").1

/-- A handle that was never given out can free a slot twice. The shot then shares the slot of the
bullet that fires it, and to take back the shot takes out that bullet. -/
theorem HostCall.shared_slot_loses_the_firer :
    ¬ ∀ (calls : List HostCall) (dt : Float32) (t : Turn),
      let s := performAll calls (.init 4 0 0 none 0)
      ({ s with frame := s.frame + 1 } : Simulation).turnAt? (dt * referenceFps) 0 = some t →
      ∀ p id task fire e t', t.tasks.get? id = some task → task.isFinished = false →
        task.kind = .fire fire → Turn.runFire p id task fire t = .error e t' →
        t'.pool.ids = t.pool.ids := by
  intro h
  have hsame := h [.create .zero 0 0, .vanish ⟨0, 0⟩, .vanish ⟨0, 1⟩, .spawn .dud .zero] 0 _ rfl
    .dud ⟨1, 0⟩ _ _ _ _ rfl rfl rfl rfl
  revert hsame
  decide +kernel

namespace Simulation

/-- In every state that a run can reach, starting a pattern does all it is for or nothing: a fault
and a full pool each leave all else as it was, and so does the start. -/
theorem spawn_is_atomic (h : Reachable (fun _ => True) issued s) (p : Pattern) (pos : Point) :
    match s.spawn p pos with
    | (.error e, s') => s.Abandons p e s'
    | (.ok none, s') => s' = { s with context := s.context.countDropped }
    | (.ok (some id), s') =>
      ∃ emitter : Bullet, emitter.id = id ∧ s.Activates p pos emitter s' := by
  obtain ⟨ho, _, _⟩ := h.inOrder
  rcases spawn_cases ho.arena ho.pool p pos with ⟨e, s', hs, ha⟩ | hs | ⟨emitter, s', hs, ha⟩
  · rw [hs]
    exact ha
  · rw [hs]
  · rw [hs]
    exact ⟨emitter, rfl, ha⟩

end Simulation

/-- A pattern whose only action is a reference that leads nowhere. -/
def Pattern.dangling : Pattern :=
  let p := ((ofName "dangling").addNode root .action).2
  let p := (p.setLabel ⟨1⟩ "top").1
  let p := (p.addNode ⟨1⟩ .actionRef).2
  (p.setLabel ⟨2⟩ "missing").1

/-- A second spark is started beside the first, and a pattern that cannot be bound is not. -/
theorem Simulation.spark_spawn_is_atomic :
    (∃ emitter s', lit.spawn .spark .zero = (.ok (some ⟨1, 0⟩), s') ∧
      s'.pool.ids = [⟨0, 0⟩, ⟨1, 0⟩] ∧ emitter.id = ⟨1, 0⟩ ∧
      lit.Activates .spark .zero emitter s') ∧
    ∃ e s', lit.spawn .dangling .zero = (.error e, s') ∧ s'.pool.ids = [⟨0, 0⟩] ∧
      lit.Abandons .dangling e s' := by
  constructor
  · have hs : lit.spawn .spark .zero = (.ok (some ⟨1, 0⟩), (lit.spawn .spark .zero).2) := rfl
    have h := spawn_is_atomic (reachable_lit trivial) .spark .zero
    rw [hs] at h
    obtain ⟨emitter, hid, ha⟩ := h
    exact ⟨emitter, _, hs, by decide +kernel, hid, ha⟩
  · have hs : lit.spawn .dangling .zero = (.error _, (lit.spawn .dangling .zero).2) := rfl
    have h := spawn_is_atomic (reachable_lit trivial) .dangling .zero
    rw [hs] at h
    exact ⟨_, _, hs, by decide +kernel, h⟩

/-- A handle that was never given out can free a slot twice. The next two bullets then share a slot,
and if the second one cannot be started, the first is gone with it. -/
theorem HostCall.shared_slot_loses_the_neighbour :
    ¬ ∀ (calls : List HostCall) (p : Pattern) (pos : Point) (e : PatternError) (s' : Simulation),
      let s := performAll calls (.init 4 0 0 none 0)
      s.spawn p pos = (.error e, s') → s'.pool.ids = s.pool.ids := by
  intro h
  have hsame := h [.create .zero 0 0, .vanish ⟨0, 0⟩, .vanish ⟨0, 1⟩, .spawn .spark .zero] .dangling
    .zero _ _ rfl
  revert hsame
  decide +kernel

end Barrage

import Barrage.Proofs.Enacting

namespace Barrage

/-- What a change does to its bullet in each frame. -/
inductive Push where
  | turn (delta : Float32)
  | thrust (delta : Float32)
  | drift (delta : Point)

/-- A turn is in degrees. -/
def Push.apply : Push → Bullet → Bullet
  | .turn delta, b => { b with direction := b.direction + Angle.toRadians delta }
  | .thrust delta, b => { b with speed := b.speed + delta }
  | .drift delta, b => { b with extraVelocity := b.extraVelocity + delta }

/-- How a task without running children works: in one frame, by holding up for some frames what
follows it, or by pushing its bullet over a term. -/
inductive Gauge where
  | instant
  | pause (frames : Nat)
  | change (term : UInt32) (push : Push)

namespace Gauge

/-- In how many frames the task holds up what follows it, from the first on. -/
def delay : Gauge → Nat
  | .pause frames => frames
  | _ => 0

/-- In how many frames one after the other the task is run. A wait is run once more after the frames
that it holds up, and a change takes a frame even if its term is zero. -/
def span : Gauge → Nat
  | .instant => 1
  | .pause frames => frames + 1
  | .change term _ => max 1 term.toNat

/-- What the task does to its bullet in each frame in which it is run. -/
def push : Gauge → Bullet → Bullet
  | .change _ push, b => push.apply b
  | _, b => b

def isChange : Gauge → Bool
  | .change _ _ => true
  | _ => false

theorem delay_lt (g : Gauge) : g.delay < g.span := by
  cases g with
  | instant => exact Nat.one_pos
  | pause frames => exact Nat.lt_succ_self frames
  | change term push => exact Nat.lt_of_lt_of_le Nat.one_pos (Nat.le_max_left _ _)

/-- All but the changes are over in the frame in which they hold up nothing any more. -/
theorem span_eq {g : Gauge} (h : g.isChange = false) : g.span = g.delay + 1 := by
  cases g with
  | instant => rfl
  | pause frames => rfl
  | change term push => cases h

@[simp] theorem vanished_push (g : Gauge) (b : Bullet) : (g.push b).vanished = b.vanished := by
  cases g with
  | change term push => cases push <;> rfl
  | _ => rfl

/-- The answer after the first `k` frames, counted from zero. -/
def status (g : Gauge) (k : Nat) : Status :=
  if k < g.delay then .paused else if k + 1 < g.span then .ongoing else .ended

variable {g : Gauge} {k : Nat}

theorem status_eq_ended : g.status k = .ended ↔ g.span ≤ k + 1 := by
  have := g.delay_lt
  unfold status
  split
  · simp only [reduceCtorEq, false_iff]
    omega
  · split
    · simp only [reduceCtorEq, false_iff]
      omega
    · simp only [true_iff]
      omega

end Gauge

/-- The task is run in a sequence, by itself and for a frame or more. -/
def TaskKind.isLeaf : TaskKind → Bool
  | .fire _ | .changeDirection _ | .changeSpeed _ | .accel _ | .wait _ => true
  | _ => false

theorem TaskKind.isLeaf_shape (kind : TaskKind) : kind.shape.isLeaf = kind.isLeaf := by
  cases kind <;> rfl

/-- The change along one axis, none where the axis is not mentioned. -/
def Pattern.axisChange (p : Pattern) (scope : Scope) (current : Float32) (term : UInt32) :
    Option NodeId → Random → Float32 × Random
  | none, r => (0, r)
  | some node, r =>
    let (value, r) := p.evalNode node scope r
    (linearRamp (p.mode node) value current term, r)

/-- How a task works that is run for the first time: its values are those that it has now. -/
def Turn.gauge (p : Pattern) (task : Task) (t : Turn) : Gauge :=
  let scope := t.context.scope task.params t.bullet
  match task.kind with
  | .wait _ => .pause (Binary32.toCount (p.evalNode task.node scope t.context.random).1).toNat
  | .changeDirection change =>
    let (value, r) := p.evalNode change.value scope t.context.random
    let term := Binary32.toCount (p.evalNode change.term scope r).1
    let aim := Angle.aim t.bullet.pos t.context.target
    .change term (.turn (directionRamp (p.mode change.value) value t.bullet.degrees aim term))
  | .changeSpeed change =>
    let (value, r) := p.evalNode change.value scope t.context.random
    let term := Binary32.toCount (p.evalNode change.term scope r).1
    .change term (.thrust (linearRamp (p.mode change.value) value t.bullet.speed term))
  | .accel accel =>
    let current := t.bullet.extraVelocity
    let (term, r) := p.evalNode accel.term scope t.context.random
    let term := Binary32.toCount term
    let (x, r) := p.axisChange scope current.x term accel.horizontal r
    let (y, _) := p.axisChange scope current.y term accel.vertical r
    .change term (.drift ⟨x, y⟩)
  | _ => .instant

/-- A ramp that was stepped `k` times and pushes as the gauge says. -/
structure Ramp.Follows {α : Type} (r : Ramp α) (push : α → Push) (g : Gauge) (k : Nat) :
    Prop where
  gauge : ∃ term, g = .change term (push r.delta)
  span : g.span = r.term.toNat
  elapsed : r.elapsed.toNat = k

/-- The progress of a task that was run `k` times and has known its values since the first. -/
inductive TaskKind.Reached (g : Gauge) (k : Nat) : TaskKind → Prop where
  | wait {left : UInt32} (hg : g = .pause (k + left.toNat)) : Reached g k (.wait (some left))
  | changeDirection {value term : NodeId} {ramp : Ramp Float32} (hr : ramp.Follows .turn g k) :
      Reached g k (.changeDirection ⟨value, term, some ramp⟩)
  | changeSpeed {value term : NodeId} {ramp : Ramp Float32} (hr : ramp.Follows .thrust g k) :
      Reached g k (.changeSpeed ⟨value, term, some ramp⟩)
  | accel {horizontal vertical : Option NodeId} {term : NodeId} {ramp : Ramp Point}
      (hr : ramp.Follows .drift g k) :
      Reached g k (.accel ⟨horizontal, vertical, term, some ramp⟩)

/-- A leaf that was run `k` times: it is over once it has been run as often as it can be. -/
structure Task.Worked (g : Gauge) (k : Nat) (task : Task) : Prop where
  done : task.isFinished = decide (g.span ≤ k)
  kind : k < g.span → task.kind.Reached g k

theorem Task.Worked.still {g : Gauge} {k : Nat} {task : Task} (h : task.Worked g k)
    (hk : g.span ≤ k) : task.Worked g (k + 1) where
  done := by rw [h.done, decide_eq_true hk, decide_eq_true (Nat.le_succ_of_le hk)]
  kind hlt := absurd hlt (by omega)

section Ramp

variable {α : Type} {r : Ramp α} {push : α → Push} {g : Gauge} {k : Nat}

theorem Ramp.follows_ofTerm (delta : α) (term : UInt32) (push : α → Push) :
    (Ramp.ofTerm delta term).Follows push (.change term (push delta)) 0 where
  gauge := ⟨term, rfl⟩
  span := by
    rw [Ramp.ofTerm, Gauge.span]
    by_cases h : term = 0
    · subst h
      rfl
    · have hpos : term.toNat ≠ 0 := fun hz => h (UInt32.toNat.inj hz)
      simp only [beq_iff_eq, h, if_false]
      omega
  elapsed := rfl

theorem Ramp.Follows.delay (h : r.Follows push g k) : g.delay = 0 := by
  obtain ⟨term, rfl⟩ := h.gauge
  rfl

theorem Ramp.Follows.push_eq (h : r.Follows push g k) : g.push = (push r.delta).apply := by
  obtain ⟨term, rfl⟩ := h.gauge
  rfl

/-- A ramp that has frames left makes one more step. -/
theorem Ramp.Follows.step (h : r.Follows push g k) (hk : k < g.span) :
    r.step.Follows push g (k + 1) ∧ Turn.rampStatus r.step = g.status k := by
  have hspan := h.span
  have helapsed := h.elapsed
  have hmore : r.elapsed < r.term := UInt32.lt_iff_toNat_lt.2 (by omega)
  have hnext : (r.elapsed + 1).toNat = k + 1 := by rw [toNat_next hmore, helapsed]
  refine ⟨⟨h.gauge, h.span, hnext⟩, ?_⟩
  have hdone : r.step.isDone = decide (g.span ≤ k + 1) := by
    rw [Ramp.isDone, Ramp.step, hspan, ← hnext]
    rfl
  rw [Turn.rampStatus, hdone, Gauge.status, h.delay, if_neg (Nat.not_lt_zero k)]
  simp only [decide_eq_true_eq]
  by_cases hlast : g.span ≤ k + 1
  · rw [if_pos hlast, if_neg (by omega)]
  · rw [if_neg hlast, if_pos (by omega)]

end Ramp

namespace Turn

variable {p : Pattern} {run : TaskId → Run Status} {fuel k : Nat} {g : Gauge} {id : TaskId}
  {task task' : Task} {t t' : Turn} {status : Status}

variable (p run id) in
/-- A task that has frames left is run for one more. -/
theorem runKind_of_reached (h : task.kind.Reached g k) (hk : k < g.span) :
    ∃ kind, (k + 1 < g.span → kind.Reached g (k + 1)) ∧ ∀ t, runKind p run id task t =
      .ok (g.status k) { t with
        bullet := g.push t.bullet
        tasks := t.tasks.modify id fun task => { task with kind } } := by
  generalize hkind : task.kind = kind at h
  cases h with
  | @wait left hg =>
    subst hg
    by_cases hz : left = 0
    · subst hz
      refine ⟨.wait (some 0), ?_, ?_⟩
      · intro hlt
        have hspan : (Gauge.pause (k + (0 : UInt32).toNat)).span = k + 1 := rfl
        omega
      · intro t
        have hs : (Gauge.pause (k + (0 : UInt32).toNat)).status k = .ended :=
          Gauge.status_eq_ended.2 (Nat.le_refl _)
        rw [hs]
        unfold runKind
        rw [hkind]
        rfl
    · have hpos : left.toNat ≠ 0 := fun h => hz (UInt32.toNat.inj h)
      have hsub : (left - 1).toNat = left.toNat - 1 :=
        UInt32.toNat_sub_of_le left 1 (UInt32.le_iff_toNat_le.2 (Nat.pos_of_ne_zero hpos))
      refine ⟨.wait (some (left - 1)), ?_, ?_⟩
      · intro _
        refine .wait (congrArg Gauge.pause ?_)
        omega
      · intro t
        have hs : (Gauge.pause (k + left.toNat)).status k = .paused := by
          have hlt : k < (Gauge.pause (k + left.toNat)).delay :=
            Nat.lt_add_of_pos_right (Nat.pos_of_ne_zero hpos)
          rw [Gauge.status, if_pos hlt]
        have hrun : runWait p id task (some left) t = .ok .paused { t with
            tasks := t.tasks.modify id fun task => { task with kind := .wait (some (left - 1)) } } := by
          have hne : (left == 0) = false := by simpa using hz
          unfold runWait
          simp only [pure_bind, hne, Bool.false_eq_true, if_false]
          rfl
        rw [hs]
        unfold runKind
        rw [hkind]
        exact hrun
  | @changeDirection value term ramp hr =>
    obtain ⟨hstep, hstatus⟩ := hr.step hk
    refine ⟨.changeDirection ⟨value, term, some ramp.step⟩, fun _ => .changeDirection hstep, fun t => ?_⟩
    rw [← hstatus, hr.push_eq]
    unfold runKind
    rw [hkind]
    rfl
  | @changeSpeed value term ramp hr =>
    obtain ⟨hstep, hstatus⟩ := hr.step hk
    refine ⟨.changeSpeed ⟨value, term, some ramp.step⟩, fun _ => .changeSpeed hstep, fun t => ?_⟩
    rw [← hstatus, hr.push_eq]
    unfold runKind
    rw [hkind]
    rfl
  | @accel horizontal vertical term ramp hr =>
    obtain ⟨hstep, hstatus⟩ := hr.step hk
    refine ⟨.accel ⟨horizontal, vertical, term, some ramp.step⟩, fun _ => .accel hstep, fun t => ?_⟩
    rw [← hstatus, hr.push_eq]
    unfold runKind
    rw [hkind]
    rfl

variable (p run id) in
/-- A task that is run for the first time goes on as if it had known its values before. -/
theorem runKind_of_fresh (hl : task.kind.isLeaf = true) (hf : task.kind.isFire = false)
    (hs : task.kind.shape = task.kind) (t : Turn) :
    ∃ kind random, kind.Reached (gauge p task t) 0 ∧ runKind p run id task t =
      runKind p run id { task with kind } { t with context := { t.context with random } } := by
  obtain ⟨node, owner, children, params, kind, phase⟩ := task
  cases kind with
  | wait remaining =>
    cases remaining with
    | some _ => cases hs
    | none =>
      refine ⟨.wait (some _), _, .wait ?_, rfl⟩
      rw [Nat.zero_add]
      rfl
  | changeDirection change =>
    obtain ⟨value, term, ramp⟩ := change
    cases ramp with
    | some _ => cases hs
    | none => exact ⟨_, _, .changeDirection (Ramp.follows_ofTerm _ _ _), rfl⟩
  | changeSpeed change =>
    obtain ⟨value, term, ramp⟩ := change
    cases ramp with
    | some _ => cases hs
    | none => exact ⟨_, _, .changeSpeed (Ramp.follows_ofTerm _ _ _), rfl⟩
  | accel accel =>
    obtain ⟨horizontal, vertical, term, ramp⟩ := accel
    cases ramp with
    | some _ => cases hs
    | none =>
      cases horizontal <;> cases vertical <;>
        exact ⟨_, _, .accel (Ramp.follows_ofTerm _ _ _), rfl⟩
  | fire => cases hf
  | action => cases hl
  | bullet => cases hl
  | «repeat» => cases hl
  | vanish => cases hl

/-- What a task without running children does leaves all other live tasks as they are, and what a
fire does its own, too. -/
theorem Acts.kept {r : Except PatternError Status} (h : Acts p id task t r t')
    (hs : t.tasks.Sound) {c : TaskId} (hc : t.tasks.contains c = true)
    (hn : c ≠ id ∨ task.kind.isFire = true) : t'.tasks.get? c = t.tasks.get? c := by
  cases h with
  | steers hk hf =>
    have hne : c ≠ id := by
      refine hn.resolve_right fun hfire => ?_
      cases hkind : task.kind with
      | fire st => exact hf st hkind
      | _ => simp [hkind, TaskKind.isFire] at hfire
    rw [Arena.get?_modify, if_neg hne]
  | vanishes => rfl
  | empty => rfl
  | unheld => rfl
  | drops => rfl
  | misfires _ _ _ _ hb =>
    have hr := (Binder.bindRoots_error (g := False) (s := ⟨t.tasks, _⟩) hs hb nofun nofun).1
    exact hr.kept c hc (Finset.notMem_empty c)
  | fires _ _ _ _ hb =>
    obtain ⟨_, X, hr, hh, _⟩ :=
      Binder.bindRoots_ok (g := False) (s := ⟨t.tasks, _⟩) hs hb nofun nofun
    have hown : Arena.Replaces _ (own id _ _) X X := replaces_own hr.sound fun root hroot =>
      hh.spans.mem_of_live hroot (hh.contains hroot)
    have hnew : c ∉ X := hr.notMem hc (Finset.notMem_empty c)
    rw [hown.kept c (hr.keeps hc (Finset.notMem_empty c)) hnew]
    exact hr.kept c hc (Finset.notMem_empty c)

section Leaf

theorem worked_close (ht : t.tasks.get? id = some task) (hf : task.isFinished = false)
    (hk : k + 1 < g.span → task.kind.Reached g (k + 1)) :
    ∃ task', (t.close id (.ok (g.status k))).tasks.get? id = some task' ∧
      task'.Worked g (k + 1) := by
  by_cases hlast : g.span ≤ k + 1
  · have hget := get?_close ht .ended
    rw [Gauge.status_eq_ended.2 hlast]
    refine ⟨_, hget, ?_, fun hlt => by omega⟩
    rw [decide_eq_true hlast]
    exact isFinished_finished
  · have hne : g.status k ≠ .ended := fun h => hlast (Gauge.status_eq_ended.1 h)
    rw [close_of_ne (by simpa using hne)]
    refine ⟨task, ht, ?_, hk⟩
    rw [hf, decide_eq_false hlast]

/-- What a task has done that was run for its frame number `k`. -/
def Advanced (g : Gauge) (k : Nat) (id : TaskId) (t : Turn) (status : Status) (t' : Turn) : Prop :=
  status = g.status k ∧ t'.bullet = g.push t.bullet ∧
    ∃ task', t'.tasks.get? id = some task' ∧ task'.Worked g (k + 1)

theorem advanced_of_runKind {t₁ : Turn} {task₁ : Task} (ht : t.tasks.get? id = some task)
    (hf : task.isFinished = false)
    (hx : runKind p (runTask p fuel) id task (t.start id) = .ok (g.status k) t₁)
    (hb : t₁.bullet = g.push t.bullet) (ht₁ : t₁.tasks.get? id = some task₁)
    (hf₁ : task₁.isFinished = false) (hk : k + 1 < g.span → task₁.kind.Reached g (k + 1))
    (hr : runTask p (fuel + 1) id t = .ok status t') : Advanced g k id t status t' := by
  rw [runTask_of_unfinished fuel ht hf, hx] at hr
  cases hr
  exact ⟨rfl, bullet_close.trans hb, worked_close ht₁ hf₁ hk⟩

theorem get?_start_modify {kind : TaskKind} (ht : t.tasks.get? id = some task) :
    ((t.start id).tasks.modify id fun task => { task with kind }).get? id =
      some { task.advance .running with kind } := by
  rw [Arena.get?_modify, if_pos rfl, get?_start ht]
  rfl

/-- A task that has been run before goes on as it was gauged then. -/
theorem advanced_next (ht : t.tasks.get? id = some task) (hw : task.Worked g k) (hk : k < g.span)
    (hr : runTask p fuel id t = .ok status t') : Advanced g k id t status t' := by
  have hf : task.isFinished = false := by rw [hw.done, decide_eq_false (Nat.not_le_of_lt hk)]
  cases fuel with
  | zero => cases hr
  | succ fuel =>
    obtain ⟨kind, hkind, hx⟩ :=
      runKind_of_reached p (runTask p fuel) id (hw.kind hk) hk
    exact advanced_of_runKind ht hf (hx _) rfl (get?_start_modify ht) (isFinished_running hf) hkind hr

theorem advanced_fire {fire : FireState} (hk : task.kind = .fire fire)
    (ht : t.tasks.get? id = some task) (hf : task.isFinished = false) (ha : t.tasks.Sound)
    (hr : runTask p (fuel + 1) id t = .ok status t') : Advanced .instant 0 id t status t' := by
  have hx : runKind p (runTask p fuel) id task (t.start id) =
      runFire p id task fire (t.start id) := by
    unfold runKind
    rw [hk]
  have hacts : Acts p id task (t.start id) _ _ := acts_fire hk
  cases hfire : runFire p id task fire (t.start id) with
  | error e t₁ =>
    rw [runTask_of_unfinished fuel ht hf, hx, hfire] at hr
    cases hr
  | ok answer t₁ =>
    rw [hfire] at hx hacts
    have hget : t₁.tasks.get? id = some (task.advance .running) :=
      (hacts.kept (evolves_start id ha).sound (Arena.contains_of_get? (get?_start ht))
        (.inr (by rw [hk]; rfl))).trans (get?_start ht)
    have hdone : answer = .ended ∧ t₁.bullet = t.bullet := by
      generalize hx : Turn.answer (EStateM.Result.ok answer t₁) = x at hacts
      cases hacts with
      | steers _ hn => exact absurd hk (hn fire)
      | vanishes hv => rw [hk] at hv; cases hv
      | empty => cases hx
      | unheld => cases hx
      | misfires => cases hx
      | drops => cases hx; exact ⟨rfl, rfl⟩
      | fires => cases hx; exact ⟨rfl, rfl⟩
    obtain ⟨rfl, hbullet⟩ := hdone
    exact advanced_of_runKind ht hf hx hbullet hget (isFinished_running hf)
      (fun hlt => absurd hlt (Nat.lt_irrefl 1)) hr

/-- A task that is run for the first time begins to work as it is gauged then. -/
theorem advanced_first (ht : t.tasks.get? id = some task) (hl : task.kind.isLeaf = true)
    (hs : task.kind.shape = task.kind) (hf : task.isFinished = false) (ha : t.tasks.Sound)
    (hr : runTask p fuel id t = .ok status t') : Advanced (gauge p task t) 0 id t status t' := by
  cases fuel with
  | zero => cases hr
  | succ fuel =>
    cases hfire : task.kind.isFire with
    | true =>
      cases hk : task.kind with
      | fire fire =>
        have hg : gauge p task t = .instant := by
          unfold gauge
          rw [hk]
        rw [hg]
        exact advanced_fire hk ht hf ha hr
      | _ => simp [hk, TaskKind.isFire] at hfire
    | false =>
      obtain ⟨kind, random, hreached, hfresh⟩ :=
        runKind_of_fresh p (runTask p fuel) id hl hfire hs (t.start id)
      have hpos : 0 < (gauge p task (t.start id)).span :=
        Nat.zero_lt_of_lt (gauge p task (t.start id)).delay_lt
      have hnext : ({ task with kind } : Task).kind.Reached (gauge p task (t.start id)) 0 := hreached
      obtain ⟨kind', hkind, hx⟩ := runKind_of_reached p (runTask p fuel) id hnext hpos
      exact advanced_of_runKind ht hf (hfresh.trans (hx _)) rfl (get?_start_modify ht)
        (isFinished_running hf) hkind hr

end Leaf

end Turn
end Barrage

import Barrage.Proofs.Chains
import Barrage.Proofs.Sequence

namespace Barrage

theorem bind_congr_at {ε σ α β : Type} {x y : EStateM ε σ α} {s : σ} (h : x s = y s)
    (f : α → EStateM ε σ β) : (x >>= f) s = (y >>= f) s := by
  simp only [bind, EStateM.bind, h]

namespace Binder

theorem bindNode_succ (b : Binder) (room : Nat) :
    b.bindNode (room + 1) = b.bindOver room (b.bindNode room) (b.bindNode (room - 1)) := by
  cases room <;> rfl

/-- Binding at a depth, by binding at the depths below it. -/
def BindsByDepth (b : Binder) (bind : Nat → NodeBinder) : Prop :=
  ∀ depth, bind depth = if maxNestDepth < depth then refuse
    else b.bindOver (maxNestDepth - depth) (bind (depth + 1)) (bind (depth + 2))

theorem bindsByDepth_bindNode (b : Binder) :
    b.BindsByDepth fun depth => b.bindNode (maxNestDepth + 1 - depth) := by
  intro depth
  by_cases h : maxNestDepth < depth
  · have hroom : maxNestDepth + 1 - depth = 0 := by omega
    simp only [h, if_true, hroom]
    rfl
  · have hroom : maxNestDepth + 1 - depth = maxNestDepth - depth + 1 := by omega
    have hchild : maxNestDepth + 1 - (depth + 1) = maxNestDepth - depth := by omega
    have hbeyond : maxNestDepth + 1 - (depth + 2) = maxNestDepth - depth - 1 := by omega
    simp only [h, if_false, hroom, hchild, hbeyond]
    exact b.bindNode_succ _

/-- The depth that is left decreases, so there is one way to bind by depth. -/
theorem BindsByDepth.unique {b : Binder} {bind bind' : Nat → NodeBinder}
    (h : b.BindsByDepth bind) (h' : b.BindsByDepth bind') (depth : Nat) :
    bind depth = bind' depth := by
  induction hleft : maxNestDepth + 1 - depth using Nat.strong_induction_on generalizing depth with
  | _ left ih =>
    rw [h depth, h' depth]
    by_cases hd : maxNestDepth < depth
    · simp only [hd, if_true]
    · rw [ih _ (by omega) (depth + 1) rfl, ih _ (by omega) (depth + 2) rfl]

end Binder

namespace Arena

variable {a : Arena} {stack : List TaskId} {m n : Nat}

theorem firstLive?_of_vacant (h : a.store.occupied = 0) : a.firstLive? stack = none := by
  induction stack with
  | nil => rfl
  | cons id stack ih =>
    have hid : a.get? id = none := by
      cases hg : a.get? id with
      | none => rfl
      | some task =>
        have hc : (a.store.release id).occupied + 1 = a.store.occupied := Store.occupied_release hg
        omega
    simp only [firstLive?, hid, ih]

theorem releaseFrom_of_vacant (h : a.store.occupied = 0) : releaseFrom m stack a = (0, a) := by
  cases m with
  | zero => rfl
  | succ m => rw [releaseFrom, firstLive?_of_vacant h]

theorem occupied_remove {id : TaskId} (h : a.contains id) :
    (a.remove id).store.occupied + 1 = a.store.occupied := by
  obtain ⟨task, ht⟩ := Option.isSome_iff_exists.1 h
  rw [remove, if_pos h]
  exact Store.occupied_release ht

/-- Every round frees a task, so that as many rounds as there are tasks free all there is to
free. -/
theorem releaseFrom_of_le (hm : a.store.occupied ≤ m) (hn : a.store.occupied ≤ n) :
    releaseFrom m stack a = releaseFrom n stack a := by
  induction m generalizing n stack a with
  | zero =>
    have h : a.store.occupied = 0 := Nat.le_zero.1 hm
    rw [releaseFrom_of_vacant h, releaseFrom_of_vacant h]
  | succ m ih =>
    cases n with
    | zero =>
      have h : a.store.occupied = 0 := Nat.le_zero.1 hn
      rw [releaseFrom_of_vacant h, releaseFrom_of_vacant h]
    | succ n =>
      rw [releaseFrom, releaseFrom]
      cases hf : a.firstLive? stack with
      | none => rfl
      | some found =>
        obtain ⟨id, task, rest⟩ := found
        have hfreed := occupied_remove (contains_firstLive? hf)
        simp only
        rw [ih (n := n) (by omega) (by omega)]

end Arena

namespace Turn

section Unlimited

variable (p : Pattern)

/-- One frame of work of a task whose children are run by `run`. -/
def visit (run : TaskId → Run Status) (id : TaskId) : Run Status := do
  let task ← task id
  if task.isFinished then pure .ended
  else
    modifyTask id (·.advance .running)
    let status ← runKind p run id task
    if status == .ended then modifyTask id (·.advance .finished)
    pure status

/-- Runs a task over `n` levels of tasks, below which `below` takes over. -/
def runOver (below : TaskId → Run Status) : Nat → TaskId → Run Status
  | 0 => below
  | n + 1 => visit p (runOver below n)

/-- Runs the roots of the bullet by `run`. -/
def runRootsBy (run : TaskId → Run Status) (kept : List TaskId) : List TaskId → Turn → Turn
  | [], t => t
  | root :: rest, t =>
    match run root t with
    | .error e t => t.abort p (kept ++ root :: rest) e
    | .ok .ended t =>
      let t := t.dismiss root (kept ++ rest)
      if t.bullet.vanished then t else runRootsBy run kept rest t
    | .ok _ t => if t.bullet.vanished then t else runRootsBy run (kept ++ [root]) rest t

end Unlimited

def runTasksBy (run : Pattern → TaskId → Run Status) (t : Turn) : Turn :=
  match t.bullet.pattern with
  | some p => runRootsBy p (run p) [] t.bullet.tasks t
  | none => t

variable {p : Pattern} {run : TaskId → Run Status} {below : TaskId → Run Status}
  {k m n room left : Nat} {t t' : Turn} {id body : TaskId} {ids : List TaskId} {task : Task}
  {status : Status}

theorem runTask_succ (p : Pattern) (fuel : Nat) (id : TaskId) :
    runTask p (fuel + 1) id = visit p (runTask p fuel) id := rfl

/-- What runs its children by itself runs over any number of levels. -/
theorem runOver_of_fixed (h : ∀ id, run id = visit p run id) (n : Nat) :
    runOver p run n = run := by
  induction n with
  | zero => rfl
  | succ n ih =>
    funext id
    rw [runOver, ih, h id]

theorem persists_runTask (p : Pattern) (fuel : Nat) (id : TaskId) (hs : t.tasks.Sound)
    (hw : (state (runTask p fuel id t)).tasks.NoWrap) :
    t.tasks.Persists (state (runTask p fuel id t)).tasks := by
  obtain ⟨_, h⟩ := runs_task p fuel id t
  exact h.persists hs trivial hw

/-- `run` goes just as the interpreter with this fuel for tasks with chains up to `k`. -/
def Matches (p : Pattern) (k fuel : Nat) (run : TaskId → Run Status) : Prop :=
  ∀ id t, t.tasks.Sound → t.tasks.Within k id → 0 < k →
    (state (runTask p fuel id t)).tasks.NoWrap → run id t = runTask p fuel id t

theorem Matches.unfinished (hm : Matches p k m run) (hs : t.tasks.Sound)
    (hin : t.tasks.Within k id) (hf : t.tasks.isFinished id = false)
    (hw : (state (runTask p m id t)).tasks.NoWrap) : run id t = runTask p m id t := by
  have hwt := (evolves_runTask p m id hs).grows.noWrap hw
  unfold Arena.isFinished at hf
  split at hf
  · rename_i ht
    obtain ⟨j, hk, _⟩ := hin.of_live ht hwt
    exact hm id t hs hin (by omega) hw
  · cases hf

/-- A sequence goes the same way if its tasks do. What is known of the state before each of them
has to be known again after it. -/
theorem sequence_congr {P : Turn → Prop} (hs : ∀ t, P t → t.tasks.Sound)
    (hrun : ∀ id ∈ ids, ∀ t, P t → t.tasks.isFinished id = false →
      (state (runTask p m id t)).tasks.NoWrap →
      run id t = runTask p m id t ∧ P (state (runTask p m id t)))
    (hP : P t) (hw : (state (runSequence (runTask p m) ids status t)).tasks.NoWrap) :
    runSequence run ids status t = runSequence (runTask p m) ids status t ∧
      P (state (runSequence (runTask p m) ids status t)) := by
  induction ids generalizing status t with
  | nil => exact ⟨rfl, hP⟩
  | cons id ids ih =>
    have hrest (c) (hc : c ∈ ids) := hrun c (List.mem_cons_of_mem _ hc)
    cases hf : t.tasks.isFinished id with
    | true =>
      rw [runSequence_of_finished hf] at hw
      rw [runSequence_of_finished hf, runSequence_of_finished hf]
      exact ih hrest hP hw
    | false =>
      have same {x : EStateM.Result PatternError Turn Status} (hr : runTask p m id t = x)
          (hw : (state x).tasks.NoWrap) : run id t = x ∧ P (state x) := by
        subst hr
        exact hrun id List.mem_cons_self t hP hf hw
      cases hr : runTask p m id t with
      | error e t' =>
        rw [runSequence_of_error hf hr] at hw ⊢
        obtain ⟨he, hP'⟩ := same hr hw
        exact ⟨runSequence_of_error hf he, hP'⟩
      | ok answer t' =>
        by_cases ha : answer = .paused
        · subst ha
          rw [runSequence_of_paused hf hr] at hw ⊢
          obtain ⟨he, hP'⟩ := same hr hw
          exact ⟨runSequence_of_paused hf he, hP'⟩
        · cases hv : t'.bullet.vanished with
          | true =>
            rw [runSequence_of_vanished hf hr ha hv] at hw ⊢
            obtain ⟨he, hP'⟩ := same hr hw
            exact ⟨runSequence_of_vanished hf he ha hv, hP'⟩
          | false =>
            have hstep := evolves_runTask p m id (hs t hP)
            rw [hr] at hstep
            rw [runSequence_of_next hf hr ha hv] at hw ⊢
            have hw' := (evolves_runSequence p m ids _ hstep.sound).grows.noWrap hw
            obtain ⟨he, hP'⟩ := same hr hw'
            rw [runSequence_of_next hf he ha hv]
            exact ih hrest hP' hw

theorem Matches.sequence (hm : Matches p k m run) (hs : t.tasks.Sound)
    (hin : ∀ c ∈ ids, t.tasks.Within k c)
    (hw : (state (runSequence (runTask p m) ids status t)).tasks.NoWrap) :
    runSequence run ids status t = runSequence (runTask p m) ids status t := by
  -- The other tasks are still within bounds after one of them has run.
  let P (u : Turn) : Prop := u.tasks.Sound ∧ ∀ c ∈ ids, u.tasks.Within k c
  have step : ∀ id ∈ ids, ∀ u, P u → u.tasks.isFinished id = false →
      (state (runTask p m id u)).tasks.NoWrap →
      run id u = runTask p m id u ∧ P (state (runTask p m id u)) := by
    rintro id hid u ⟨hs, hin⟩ hf hw
    have hpersists := persists_runTask p m id hs hw
    exact ⟨hm.unfinished hs (hin id hid) hf hw, hpersists.sound,
      fun c hc => hpersists.within _ _ (hin c hc)⟩
  exact (sequence_congr (fun _ h => h.1) step ⟨hs, hin⟩ hw).1

/-- What follows the end of a body goes the same way if the other bodies do. -/
theorem Matches.ended (hs : t.tasks.Sound) (hroom : room < k)
    (hk : ∀ task, (t.shed body).tasks.get? id = some task → task.kind.reach = room + 1)
    (hw : (state (endBody p (runTask p m) room id body left t)).tasks.NoWrap)
    (ih : ∀ t task, t.tasks.Sound → t.tasks.get? id = some task → task.kind.reach = room + 1 →
      (∀ c ∈ task.children, t.tasks.Within k c) →
      (state (runBodies p (runTask p m) room id left t)).tasks.NoWrap →
      runBodies p run room id left t = runBodies p (runTask p m) room id left t) :
    endBody p run room id body left t = endBody p (runTask p m) room id body left t := by
  cases ht : (t.shed body).tasks.get? id with
  | none =>
    rw [endBody, endBody, bind_of_error (finishBody_of_none ht),
      bind_of_error (finishBody_of_none ht)]
  | some task =>
    by_cases hl : left = 0 ∨ t.bullet.vanished = true
    · rw [endBody_of_last ht hl, endBody_of_last ht hl]
    · rw [endBody_of_due ht hl] at hw
      rw [endBody_of_due ht hl, endBody_of_due ht hl]
      cases hb : rebind p room id task t.bullet ((t.shed body).countBody id task) with
      | error e t' => rfl
      | ok fresh t' =>
        simp only [hb] at hw ⊢
        have hcount := evolves_countBody body id task hs
        have hbind : ((t.shed body).countBody id task).tasks.Evolves t'.tasks :=
          evolves_rebind hcount.sound hb
        have hadopt := evolves_adopt id fresh hbind.sound
        have hw' := (hadopt.bind fun h => evolves_runBodies p m room id left h).grows.noWrap hw
        have hreach : task.countBody.kind.reach = room + 1 := by
          rw [TaskKind.reach_of_shape (shape_countBody task), hk task ht]
        obtain ⟨hpersists, hget, hfresh⟩ :=
          persists_again hcount.sound (get?_counted ht) hreach hw' hb
        apply ih _ _ hpersists.sound hget hreach _ hw
        intro c hc
        rw [List.mem_singleton.1 hc]
        exact hfresh.mono hroom

/-- A `repeat` whose bodies are within its reach goes the same way. -/
theorem Matches.bodies (hm : Matches p k m run) (hs : t.tasks.Sound)
    (ht : t.tasks.get? id = some task) (hk : task.kind.reach = room + 1) (hroom : room < k)
    (hin : ∀ c ∈ task.children, t.tasks.Within k c)
    (hw : (state (runBodies p (runTask p m) room id left t)).tasks.NoWrap) :
    runBodies p run room id left t = runBodies p (runTask p m) room id left t := by
  induction left generalizing t task with
  | zero => rfl
  | succ left ih =>
    cases hc : task.children with
    | nil =>
      rw [runBodies_succ, runBodies_succ, bind_of_ok (task_of_some ht),
        bind_of_ok (task_of_some ht), hc]
    | cons body rest =>
      have hbody := hin body (hc ▸ List.mem_cons_self)
      have same {x : EStateM.Result PatternError Turn Status} (hr : runTask p m body t = x)
          (hw : (state x).tasks.NoWrap) : run body t = x :=
        (hm body t hs hbody (Nat.zero_lt_of_lt hroom) (hr ▸ hw)).trans hr
      cases hr : runTask p m body t with
      | error e t' =>
        rw [runBodies_of_error ht hc hr] at hw ⊢
        exact runBodies_of_error ht hc (same hr hw)
      | ok answer t' =>
        by_cases ha : answer = .ended
        · subst ha
          have hrun := evolves_runTask p m body hs
          rw [hr] at hrun
          rw [runBodies_of_ended ht hc hr] at hw ⊢
          have hshed := (evolves_endBody p m room id body left hrun.sound).grows.noWrap hw
          have hw' := hrun.sound.evolves_release.grows.noWrap hshed
          have hpersists := persists_runTask p m body hs (by rw [hr]; exact hw')
          rw [hr] at hpersists
          rw [runBodies_of_ended ht hc (same hr hw')]
          refine Matches.ended hrun.sound hroom ?_ hw fun t task hs ht hk hin hw =>
            ih hs ht hk hin hw
          intro task' ht'
          rw [(hpersists.bind fun h => h.persists_release).reach ht ht' hshed, hk]
        · rw [runBodies_of_hold ht hc hr ha] at hw ⊢
          exact runBodies_of_hold ht hc (same hr hw) ha

theorem Counts.counted {st : RepeatState} {times : UInt32} (h : Counts p id task st t times t')
    (ht : t.tasks.get? id = some (task.advance .running)) (hk : task.kind = .repeat st) :
    ∃ task', t'.tasks.get? id = some task' ∧ task'.kind.reach = st.room + 1 ∧
      task'.children = task.children := by
  cases h with
  | known =>
    refine ⟨_, ht, ?_, rfl⟩
    rw [show (task.advance .running).kind = task.kind from rfl, hk]
    rfl
  | finds =>
    refine ⟨{ task.advance .running with kind := .repeat { st with times := some times } }, ?_,
      rfl, rfl⟩
    rw [Arena.get?_modify, if_pos rfl, ht]
    rfl

/-- Only the children of a task are run by `run`. -/
theorem Matches.kind (hm : Matches p k m run) (hs : t.tasks.Sound)
    (ht : t.tasks.get? id = some (task.advance .running)) (hk : task.kind.reach ≤ k)
    (hin : ∀ c ∈ task.children, t.tasks.Within k c)
    (hw : (state (runKind p (runTask p m) id task t)).tasks.NoWrap) :
    runKind p run id task t = runKind p (runTask p m) id task t := by
  unfold runKind at hw ⊢
  cases hkind : task.kind with
  | action =>
    simp only [hkind] at hw
    exact hm.sequence hs hin hw
  | bullet =>
    simp only [hkind] at hw
    exact hm.sequence hs hin hw
  | «repeat» st =>
    obtain ⟨times, t₁, he, hc⟩ := counts_repeatTimes p id task st t
    simp only [hkind, runRepeat, bind_of_ok he] at hw ⊢
    have hcount := hc.persists hs ht hkind
    obtain ⟨task', ht', hreach, hchildren⟩ := hc.counted ht hkind
    rw [hkind] at hk
    apply hm.bodies hcount.sound ht' hreach hk _ hw
    intro c hm
    exact hcount.within _ _ (hin c (hchildren ▸ hm))
  | fire st => rfl
  | changeDirection st => rfl
  | changeSpeed st => rfl
  | accel st => rfl
  | wait remaining => rfl
  | vanish => rfl

theorem visit_of_none (ht : t.tasks.get? id = none) :
    visit p run id t = .error (.staleTask id) t := by
  rw [visit, bind_of_error (task_of_none ht)]

theorem visit_of_finished (ht : t.tasks.get? id = some task) (hf : task.isFinished = true) :
    visit p run id t = .ok .ended t := by
  rw [visit, bind_of_ok (task_of_some ht)]
  simp only [hf, if_true]
  rfl

theorem visit_congr {run' : TaskId → Run Status} (ht : t.tasks.get? id = some task)
    (hf : task.isFinished = false)
    (h : runKind p run id task (t.start id) = runKind p run' id task (t.start id)) :
    visit p run id t = visit p run' id t := by
  have hs : modifyTask id (·.advance .running) t = .ok () (t.start id) := rfl
  rw [visit, visit, bind_of_ok (task_of_some ht), bind_of_ok (task_of_some ht)]
  simp only [hf, Bool.false_eq_true, if_false]
  rw [bind_of_ok hs, bind_of_ok hs]
  exact bind_congr_at h _

/-- Where chains are no longer than `k`, nothing is run below `k` levels of tasks. -/
theorem matches_runOver (p : Pattern) (below : TaskId → Run Status) (hn : k ≤ n) (hm : k ≤ m) :
    Matches p k m (runOver p below n) := by
  induction k generalizing m n with
  | zero =>
    intro _ _ _ _ hpos
    cases hpos
  | succ k ih =>
    obtain ⟨n, rfl⟩ := Nat.exists_eq_add_of_le' (Nat.le_of_add_left_le hn)
    obtain ⟨m, rfl⟩ := Nat.exists_eq_add_of_le' (Nat.le_of_add_left_le hm)
    intro id t hs hin _ hw
    rw [runOver, runTask_succ]
    cases ht : t.tasks.get? id with
    | none => rw [visit_of_none ht, visit_of_none ht]
    | some task =>
      cases hf : task.isFinished with
      | true => rw [visit_of_finished ht hf, visit_of_finished ht hf]
      | false =>
        have hstart := persists_start id hs
        have hwt := (evolves_runTask p (m + 1) id hs).grows.noWrap hw
        obtain ⟨_, hk, hreach, hchildren⟩ := hin.of_live ht hwt
        cases hk
        rw [(runTask_of_some (p := p) m ht hf rfl).2] at hw
        apply visit_congr ht hf
        apply (ih (Nat.le_of_succ_le_succ hn) (Nat.le_of_succ_le_succ hm)).kind hstart.sound
          (get?_start ht) hreach (fun c hc => hstart.within _ _ (hchildren c hc))
        exact (grows_close id _).noWrap hw

/-- Whatever task is run in an arena with short chains, and whatever takes over below them. -/
theorem runOver_eq (p : Pattern) (below : TaskId → Run Status) (id : TaskId)
    (hn : maxTaskChain ≤ n) (hs : t.tasks.Sound) (hb : t.tasks.Bounded)
    (hw : (state (runTask p maxTaskChain id t)).tasks.NoWrap) :
    runOver p below n id t = runTask p maxTaskChain id t := by
  by_cases hc : t.tasks.contains id = true
  · exact matches_runOver p below hn (Nat.le_refl _) id t hs (hb id hc) (by decide) hw
  · have ht := Arena.get?_eq_none hc
    obtain ⟨n, rfl⟩ := Nat.exists_eq_add_of_le' hn
    exact (visit_of_none ht).trans (visit_of_none ht).symm

/-- Among the arenas of `G`, each task is run by `rerun` just as by the interpreter. -/
structure Replays (G : Arena → Prop) (rerun : Pattern → TaskId → Run Status) : Prop where
  sound : ∀ {a}, G a → a.Sound
  release : ∀ {a} id, G a → G (a.release id).2
  task : ∀ p id t, G t.tasks → (state (runTask p maxTaskChain id t)).tasks.NoWrap →
    rerun p id t = runTask p maxTaskChain id t ∧ G (state (runTask p maxTaskChain id t)).tasks

variable {G : Arena → Prop} {rerun : Pattern → TaskId → Run Status}

theorem Replays.releaseAll (h : Replays G rerun) {a : Arena} (ids : List TaskId) (hG : G a) :
    G (a.releaseAll ids) := by
  induction ids generalizing a with
  | nil => exact hG
  | cons id ids ih => exact ih (h.release id hG)

/-- Where chains are short it is the same over any number of levels, and chains stay short. -/
theorem replays_runOver {a : Arena} (below : Pattern → TaskId → Run Status)
    (hn : maxTaskChain ≤ n) :
    Replays (fun a' => a.Persists a' ∧ a'.Bounded) fun p => runOver p (below p) n where
  sound h := h.1.sound
  release id h := by
    have hr : Arena.Persists _ (Arena.release _ id).2 := h.1.sound.persists_release
    exact ⟨h.1.trans hr, hr.bounded h.2⟩
  task p id t h hw := by
    have hr := persists_runTask p maxTaskChain id h.1.sound hw
    exact ⟨runOver_eq p (below p) id hn h.1.sound h.2 hw, h.1.trans hr, hr.bounded h.2⟩

section Roots

variable {kept rest roots : List TaskId} {root : TaskId} {e : PatternError}

theorem runRootsBy_of_error (hr : run root t = .error e t') :
    runRootsBy p run kept (root :: rest) t = t'.abort p (kept ++ root :: rest) e := by
  rw [runRootsBy, hr]

theorem runRootsBy_of_ended (hr : run root t = .ok .ended t') :
    runRootsBy p run kept (root :: rest) t =
      if t'.bullet.vanished then t'.dismiss root (kept ++ rest)
      else runRootsBy p run kept rest (t'.dismiss root (kept ++ rest)) := by
  rw [runRootsBy, hr]
  rfl

theorem runRootsBy_of_kept (hr : run root t = .ok status t') (hs : status ≠ .ended) :
    runRootsBy p run kept (root :: rest) t =
      if t'.bullet.vanished then t' else runRootsBy p run (kept ++ [root]) rest t' := by
  rw [runRootsBy, hr]
  cases status with
  | ended => exact absurd rfl hs
  | ongoing => rfl
  | paused => rfl

theorem runRoots_eq_by (p : Pattern) (kept roots : List TaskId) (t : Turn) :
    runRoots p kept roots t = runRootsBy p (runTask p maxTaskChain) kept roots t := by
  induction roots generalizing kept t with
  | nil => rfl
  | cons root rest ih =>
    rw [runRoots]
    cases hr : runTask p maxTaskChain root t with
    | error e t' => rw [runRootsBy_of_error hr]; rfl
    | ok status t' =>
      cases status with
      | ended =>
        rw [runRootsBy_of_ended hr, ← ih]
        rfl
      | ongoing =>
        rw [runRootsBy_of_kept hr (by simp), ← ih]
      | paused =>
        rw [runRootsBy_of_kept hr (by simp), ← ih]

theorem evolves_runRootsBy (p : Pattern) (kept roots : List TaskId) (hs : t.tasks.Sound) :
    t.tasks.Evolves (runRootsBy p (runTask p maxTaskChain) kept roots t).tasks := by
  rw [← runRoots_eq_by]
  exact evolves_runRoots p kept roots hs

theorem replays_roots (h : Replays G rerun) (hG : G t.tasks)
    (hw : (runRootsBy p (runTask p maxTaskChain) kept roots t).tasks.NoWrap) :
    runRootsBy p (rerun p) kept roots t = runRootsBy p (runTask p maxTaskChain) kept roots t ∧
      G (runRootsBy p (runTask p maxTaskChain) kept roots t).tasks := by
  induction roots generalizing kept t with
  | nil => exact ⟨rfl, hG⟩
  | cons root rest ih =>
    have hrun := evolves_runTask p maxTaskChain root (h.sound hG)
    have same {x : EStateM.Result PatternError Turn Status}
        (hr : runTask p maxTaskChain root t = x) (hw : (state x).tasks.NoWrap) :
        rerun p root t = x ∧ G (state x).tasks := by
      subst hr
      exact h.task p root t hG hw
    cases hr : runTask p maxTaskChain root t with
    | error e t' =>
      rw [hr] at hrun
      rw [runRootsBy_of_error hr] at hw ⊢
      have hw' := (evolves_releaseAll hrun.sound _).grows.noWrap hw
      obtain ⟨hsame, hG'⟩ := same hr hw'
      exact ⟨runRootsBy_of_error hsame, h.releaseAll _ hG'⟩
    | ok status t' =>
      rw [hr] at hrun
      by_cases he : status = .ended
      · subst he
        have hrel : t'.tasks.Evolves (t'.dismiss root (kept ++ rest)).tasks :=
          hrun.sound.evolves_release
        rw [runRootsBy_of_ended hr] at hw ⊢
        cases hv : t'.bullet.vanished with
        | true =>
          simp only [hv, if_true] at hw ⊢
          obtain ⟨hsame, hG'⟩ := same hr (hrel.grows.noWrap hw)
          rw [runRootsBy_of_ended hsame]
          simp only [hv, if_true]
          exact ⟨trivial, h.release root hG'⟩
        | false =>
          simp only [hv, Bool.false_eq_true, if_false] at hw ⊢
          have hw' := (evolves_runRootsBy p kept rest hrel.sound).grows.noWrap hw
          obtain ⟨hsame, hG'⟩ := same hr (hrel.grows.noWrap hw')
          rw [runRootsBy_of_ended hsame]
          simp only [hv, Bool.false_eq_true, if_false]
          exact ih (h.release root hG') hw
      · rw [runRootsBy_of_kept hr he] at hw ⊢
        cases hv : t'.bullet.vanished with
        | true =>
          simp only [hv, if_true] at hw ⊢
          obtain ⟨hsame, hG'⟩ := same hr hw
          rw [runRootsBy_of_kept hsame he]
          simp only [hv, if_true]
          exact ⟨trivial, hG'⟩
        | false =>
          simp only [hv, Bool.false_eq_true, if_false] at hw ⊢
          have hw' := (evolves_runRootsBy p _ rest hrun.sound).grows.noWrap hw
          obtain ⟨hsame, hG'⟩ := same hr hw'
          rw [runRootsBy_of_kept hsame he]
          simp only [hv, Bool.false_eq_true, if_false]
          exact ih hG' hw

end Roots

theorem replays_tasks (h : Replays G rerun) (hG : G t.tasks)
    (hw : t.runTasks.tasks.NoWrap) : t.runTasksBy rerun = t.runTasks ∧ G t.runTasks.tasks := by
  unfold runTasksBy runTasks at *
  cases hp : t.bullet.pattern with
  | none => exact ⟨rfl, hG⟩
  | some p =>
    simp only [hp, runRoots_eq_by] at hw ⊢
    exact replays_roots h hG hw

end Turn

namespace Simulation

section Unlimited

variable (run : Pattern → TaskId → Run Status)

/-- One frame of one bullet, whose tasks are run by `run`. -/
def tickBy (s : Simulation) (scale : Float32) (id : BulletId) : Simulation :=
  match s.pool.take id with
  | (none, pool) => { s with pool }
  | (some b, pool) =>
    if b.vanished then ({ s with pool } : Simulation).settle scale b
    else
      let t := Turn.runTasksBy run ⟨b, s.tasks, pool, s.context, s.notices⟩
      (s.after t).settle scale t.bullet

def tickFromBy (scale : Float32) : (count i : Nat) → Simulation → Simulation
  | 0, _, s => s
  | count + 1, i, s =>
    match s.pool.idAt? i with
    | none => s
    | some id => tickFromBy scale count (i + 1) (s.tickBy run scale id)

/-- One frame in which all tasks are run by `run`. -/
def updateBy (s : Simulation) (dt : Float32) : Simulation :=
  sweep (tickFromBy run (dt * referenceFps) s.size 0 { s with frame := s.frame + 1 })

end Unlimited

variable {s : Simulation} {scale dt : Float32} {id : BulletId} {n : Nat}

section Persists

theorem persists_vanish (id : BulletId) (hs : s.tasks.Sound) :
    s.tasks.Persists (s.vanish id).2.tasks := by
  unfold vanish
  split
  · exact hs.persists
  · exact hs.persists_releaseAll _

theorem persists_vanishAll (ids : List BulletId) (hs : s.tasks.Sound) :
    s.tasks.Persists (s.vanishAll ids).tasks := by
  induction ids generalizing s with
  | nil => exact hs.persists
  | cons id ids ih => exact (persists_vanish id hs).bind ih

theorem persists_evict (excess : Nat) (hs : s.tasks.Sound) :
    s.tasks.Persists (evict excess s).tasks := by
  induction excess generalizing s with
  | zero => exact hs.persists
  | succ excess ih =>
    rw [evict]
    split
    · exact (persists_vanish _ hs).bind ih
    · exact hs.persists

theorem persists_spawn (p : Pattern) (pos : Point) (hs : s.tasks.Sound) :
    s.tasks.Persists (s.spawn p pos).2.tasks := by
  unfold spawn
  split
  · exact hs.persists
  · split
    · exact hs.persists
    · simp only [activate]
      split
      · rename_i hb
        exact Binder.persists_bindRoots _ _ _ (s := ⟨s.tasks, _⟩) hs hb
      · rename_i hb
        exact Binder.persists_bindRoots _ _ _ (s := ⟨s.tasks, _⟩) hs hb

end Persists

section Replays

variable {G : Arena → Prop} {rerun : Pattern → TaskId → Run Status}

theorem replays_vanish (h : Turn.Replays G rerun) (id : BulletId) (hG : G s.tasks) :
    G (s.vanish id).2.tasks := by
  unfold vanish
  split
  · exact hG
  · exact h.releaseAll _ hG

theorem replays_vanishAll (h : Turn.Replays G rerun) (ids : List BulletId) (hG : G s.tasks) :
    G (s.vanishAll ids).tasks := by
  induction ids generalizing s with
  | nil => exact hG
  | cons id ids ih => exact ih (replays_vanish h id hG)

theorem replays_tick (h : Turn.Replays G rerun) (hG : G s.tasks)
    (hw : (s.tick scale id).tasks.NoWrap) :
    s.tickBy rerun scale id = s.tick scale id ∧ G (s.tick scale id).tasks := by
  unfold tick at hw ⊢
  unfold tickBy
  generalize s.pool.take id = taken at hw ⊢
  obtain ⟨_ | b, pool⟩ := taken
  · exact ⟨rfl, hG⟩
  · simp only at hw ⊢
    cases hv : b.vanished with
    | true =>
      simp only [if_true]
      exact ⟨trivial, hG⟩
    | false =>
      simp only [hv, Bool.false_eq_true, if_false, runTasks] at hw ⊢
      obtain ⟨he, hG'⟩ := Turn.replays_tasks h (t := ⟨b, s.tasks, pool, s.context, s.notices⟩) hG hw
      rw [he]
      generalize Turn.runTasks _ = t at hG' ⊢
      exact ⟨rfl, hG'⟩

theorem replays_tickFrom (h : Turn.Replays G rerun) (hG : G s.tasks) (count i : Nat)
    (hw : (tickFrom scale count i s).tasks.NoWrap) :
    tickFromBy rerun scale count i s = tickFrom scale count i s ∧
      G (tickFrom scale count i s).tasks := by
  induction count generalizing i s with
  | zero => exact ⟨rfl, hG⟩
  | succ count ih =>
    rw [tickFrom] at hw ⊢
    rw [tickFromBy]
    cases hi : s.pool.idAt? i with
    | none => exact ⟨rfl, hG⟩
    | some id =>
      simp only [hi] at hw ⊢
      have hstep := (evolves_tick (h.sound hG) scale id).sound
      have hw' := (evolves_tickFrom hstep scale count (i + 1)).grows.noWrap hw
      obtain ⟨he, hG'⟩ := replays_tick h hG hw'
      rw [he]
      exact ih hG' (i + 1) hw

theorem replays_update (h : Turn.Replays G rerun) (hG : G s.tasks)
    (hw : (s.update dt).tasks.NoWrap) :
    s.updateBy rerun dt = s.update dt ∧ G (s.update dt).tasks := by
  have hw' := (grows_vanishAll _).noWrap hw
  obtain ⟨he, hG'⟩ := replays_tickFrom (s := { s with frame := s.frame + 1 }) h hG s.size 0 hw'
  exact ⟨congrArg sweep he, replays_vanishAll h _ hG'⟩

end Replays

theorem tickFromBy_eq (below : Pattern → TaskId → Run Status) (hn : maxTaskChain ≤ n)
    (hs : s.tasks.Sound) (hb : s.tasks.Bounded) (count i : Nat)
    (hw : (tickFrom scale count i s).tasks.NoWrap) :
    tickFromBy (fun p => Turn.runOver p (below p) n) scale count i s = tickFrom scale count i s ∧
      s.tasks.Persists (tickFrom scale count i s).tasks :=
  have h := replays_tickFrom (Turn.replays_runOver below hn) ⟨hs.persists, hb⟩ count i hw
  ⟨h.1, h.2.1⟩

/-- A frame goes the same way whatever takes over below the longest chain of tasks. -/
theorem updateBy_eq (below : Pattern → TaskId → Run Status) (hn : maxTaskChain ≤ n)
    (hs : s.tasks.Sound) (hb : s.tasks.Bounded) (hw : (s.update dt).tasks.NoWrap) :
    s.updateBy (fun p => Turn.runOver p (below p) n) dt = s.update dt ∧
      s.tasks.Persists (s.update dt).tasks :=
  have h := replays_update (Turn.replays_runOver below hn) ⟨hs.persists, hb⟩ hw
  ⟨h.1, h.2.1⟩

end Simulation

namespace HostCall

variable {s : Simulation}

theorem evolves_perform (c : HostCall) (s : Simulation) (hs : s.tasks.Sound) :
    s.tasks.Evolves (c.perform s).tasks := by
  cases c with
  | create pos direction speed =>
    simp only [perform, Simulation.create]
    split <;> exact hs.evolves
  | spawn p pos => exact (Simulation.persists_spawn p pos hs).toEvolves
  | update dt =>
    have hbegin : ({ s with frame := s.frame + 1 } : Simulation).tasks.Sound := hs
    exact (Simulation.evolves_tickFrom hbegin _ _ _).bind fun h =>
      (Simulation.persists_vanishAll _ h).toEvolves
  | vanish id => exact (Simulation.persists_vanish id hs).toEvolves
  | clear => exact (Simulation.persists_vanishAll _ hs).toEvolves
  | setCapacity capacity =>
    exact (Simulation.persists_evict (s := { s with pool := s.pool.setCapacity capacity }) _
      hs).toEvolves
  | setRank rank => exact hs.evolves
  | setTarget target => exact hs.evolves
  | edit id f => exact hs.evolves
  | collect => exact hs.evolves

theorem evolves_performAll (calls : List HostCall) (hs : s.tasks.Sound) :
    s.tasks.Evolves (performAll calls s).tasks := by
  induction calls generalizing s with
  | nil => exact hs.evolves
  | cons c calls ih => exact (evolves_perform c s hs).bind ih

section Replays

variable {G : Arena → Prop} {rerun : Pattern → TaskId → Run Status}

/-- A call of the host stays among the arenas of `G` if starting a pattern does. -/
theorem replays_perform (h : Turn.Replays G rerun)
    (hspawn : ∀ (s : Simulation) p pos, G s.tasks → G (s.spawn p pos).2.tasks) (c : HostCall)
    (hG : G s.tasks) (hw : (c.perform s).tasks.NoWrap) : G (c.perform s).tasks := by
  have evict (excess : Nat) (s : Simulation) (hG : G s.tasks) :
      G (Simulation.evict excess s).tasks := by
    induction excess generalizing s with
    | zero => exact hG
    | succ excess ih =>
      rw [Simulation.evict]
      split
      · exact ih _ (Simulation.replays_vanish h _ hG)
      · exact hG
  cases c with
  | create pos direction speed =>
    simp only [perform, Simulation.create]
    split <;> exact hG
  | spawn p pos => exact hspawn s p pos hG
  | update dt => exact (Simulation.replays_update h hG hw).2
  | vanish id => exact Simulation.replays_vanish h id hG
  | clear => exact Simulation.replays_vanishAll h _ hG
  | setCapacity capacity => exact evict _ { s with pool := s.pool.setCapacity capacity } hG
  | setRank rank => exact hG
  | setTarget target => exact hG
  | edit id f => exact hG
  | collect => exact hG

theorem replays_performAll (h : Turn.Replays G rerun)
    (hspawn : ∀ (s : Simulation) p pos, G s.tasks → G (s.spawn p pos).2.tasks)
    (calls : List HostCall) (hG : G s.tasks) (hw : (performAll calls s).tasks.NoWrap) :
    G (performAll calls s).tasks := by
  induction calls generalizing s with
  | nil => exact hG
  | cons c calls ih =>
    have hstep := (evolves_perform c s (h.sound hG)).sound
    have hw' := (evolves_performAll calls hstep).grows.noWrap hw
    exact ih (replays_perform h hspawn c hG hw') hw

end Replays

theorem persists_bounded_spawn (a : Arena) (s : Simulation) (p : Pattern) (pos : Point)
    (h : a.Persists s.tasks ∧ s.tasks.Bounded) :
    a.Persists (s.spawn p pos).2.tasks ∧ (s.spawn p pos).2.tasks.Bounded :=
  have hspawn := Simulation.persists_spawn p pos h.1.sound
  ⟨h.1.trans hspawn, hspawn.bounded h.2⟩

theorem bounded_perform (c : HostCall) (hs : s.tasks.Sound) (hb : s.tasks.Bounded)
    (hw : (c.perform s).tasks.NoWrap) : (c.perform s).tasks.Bounded :=
  (replays_perform (Turn.replays_runOver (fun _ _ => pure .ended) (Nat.le_refl _))
    (persists_bounded_spawn s.tasks) c ⟨hs.persists, hb⟩ hw).2

/-- Whatever the host calls, tasks keep what was bound for them, and chains stay short. -/
theorem bounded_performAll (calls : List HostCall) (hs : s.tasks.Sound) (hb : s.tasks.Bounded)
    (hw : (performAll calls s).tasks.NoWrap) : (performAll calls s).tasks.Bounded :=
  (replays_performAll (Turn.replays_runOver (fun _ _ => pure .ended) (Nat.le_refl _))
    (persists_bounded_spawn s.tasks) calls ⟨hs.persists, hb⟩ hw).2

/-- Every frame ends, whatever the patterns and the calls of the host. Binding goes by the depth
that is left, releasing by the tasks that are left, and running by the levels of tasks, of which
there are never more than `maxTaskChain`: what would take over below them is never reached. Hence a
frame is the same for everything that runs a task by running its children, without a limit. -/
theorem every_frame_ends (capacity : Nat) (seed : UInt64) (rank : Float32) (cull : Option Bounds)
    (margin : Float32) (calls : List HostCall) (dt : Float32) :
    let s := performAll calls (.init capacity seed rank cull margin)
    (∀ (b : Binder) (bind : Nat → NodeBinder),
      b.BindsByDepth bind ↔ bind = fun depth => b.bindNode (maxNestDepth + 1 - depth)) ∧
    (∀ (a : Arena) (stack : List TaskId) (rounds : Nat), a.store.slots.size ≤ rounds →
      Arena.releaseFrom rounds stack a = Arena.releaseFrom a.store.slots.size stack a) ∧
    (∀ (p : Pattern) (b : Bullet) (id : TaskId) (below : TaskId → Run Status) (n : Nat),
      (Turn.state (Turn.runTask p maxTaskChain id (s.turn b))).tasks.NoWrap → maxTaskChain ≤ n →
        Turn.runOver p below n id (s.turn b) = Turn.runTask p maxTaskChain id (s.turn b)) ∧
    ((s.update dt).tasks.NoWrap →
      (∀ (below : Pattern → TaskId → Run Status) (n : Nat), maxTaskChain ≤ n →
        s.updateBy (fun p => Turn.runOver p (below p) n) dt = s.update dt) ∧
      ∀ run : Pattern → TaskId → Run Status, (∀ p id, run p id = Turn.visit p (run p) id) →
        s.updateBy run dt = s.update dt) := by
  intro s
  have hs : s.tasks.Sound := (evolves_performAll calls Arena.sound_empty).sound
  have hb (hw : s.tasks.NoWrap) : s.tasks.Bounded :=
    bounded_performAll calls Arena.sound_empty Arena.bounded_empty hw
  refine ⟨?_, ?_, ?_, ?_⟩
  · intro b bind
    constructor
    · intro h
      funext depth
      exact h.unique b.bindsByDepth_bindNode depth
    · rintro rfl
      exact b.bindsByDepth_bindNode
  · intro a stack rounds h
    exact Arena.releaseFrom_of_le (Nat.le_trans a.store.slots.countP_le_size h)
      a.store.slots.countP_le_size
  · intro p b id below n hw hn
    have hw' := (Turn.evolves_runTask (t := s.turn b) p maxTaskChain id hs).grows.noWrap hw
    exact Turn.runOver_eq p below id hn hs (hb hw') hw
  · intro hw
    have hbound := hb ((evolves_perform (.update dt) s hs).grows.noWrap hw)
    have deeper (below : Pattern → TaskId → Run Status) (n : Nat) (hn : maxTaskChain ≤ n) :
        s.updateBy (fun p => Turn.runOver p (below p) n) dt = s.update dt :=
      (Simulation.updateBy_eq below hn hs hbound hw).1
    refine ⟨deeper, ?_⟩
    intro run hrun
    have hfixed (p : Pattern) : Turn.runOver p (run p) maxTaskChain = run p :=
      Turn.runOver_of_fixed (hrun p) maxTaskChain
    have h := deeper run maxTaskChain (Nat.le_refl _)
    simp only [hfixed] at h
    exact h

/-- A spark's frame is the same if tasks are run over more levels than there can be. -/
theorem spark_frame_ends :
    (Simulation.lit.update 0).tasks.NoWrap ∧
      Simulation.lit.updateBy
          (fun p => Turn.runOver p (fun _ => pure .paused) (maxTaskChain + 1)) 0 =
        Simulation.lit.update 0 := by
  have hlit : performAll [.spawn .spark .zero] (.init 4 0 0 none 0) = Simulation.lit := rfl
  have h := every_frame_ends 4 0 0 none 0 [.spawn .spark .zero] 0
  simp only [hlit] at h
  obtain ⟨_, _, _, hupdate⟩ := h
  have hw : (Simulation.lit.update 0).tasks.NoWrap := by decide +kernel
  exact ⟨hw, (hupdate hw).1 _ _ (Nat.le_succ _)⟩

end HostCall
end Barrage

import Barrage.Proofs.Confinement
import Barrage.Proofs.Counters

namespace Barrage

theorem next_ne_zero {m n : UInt32} (h : m < n) : (m + 1 == 0) = false := by
  rw [beq_eq_false_iff_ne]
  intro he
  have hnext := toNat_next h
  rw [he] at hnext
  exact absurd hnext (Nat.succ_ne_zero _).symm

namespace TaskKind

/-- The counter of a task of this kind cannot count one more: it would begin anew. -/
def isFull : TaskKind → Bool
  | .repeat state => state.done + 1 == 0
  | .changeDirection state | .changeSpeed state => state.ramp.any fun ramp => ramp.elapsed + 1 == 0
  | .accel state => state.ramp.any fun ramp => ramp.elapsed + 1 == 0
  | _ => false

theorem InRange.ramp_room {α : Type} {found : Option (Ramp α)}
    (h : ∀ ramp, found = some ramp → ramp.elapsed < ramp.term) :
    (found.any fun ramp => ramp.elapsed + 1 == 0) = false := by
  cases found with
  | none => rfl
  | some ramp => exact next_ne_zero (h ramp rfl)

/-- A ramp that is in range has room for one more frame. -/
theorem InRange.not_isFull {kind : TaskKind} (h : kind.InRange) (hk : kind.isRepeat = false) :
    kind.isFull = false := by
  cases kind with
  | «repeat» => cases hk
  | changeDirection => exact ramp_room h
  | changeSpeed => exact ramp_room h
  | accel => exact ramp_room h
  | _ => rfl

end TaskKind

/-- A `repeat` has as many bodies left as it still has to count. -/
def RepeatState.Due (state : RepeatState) (left : Nat) : Prop :=
  ∃ times, state.times = some times ∧ times ≤ maxRepeat ∧ state.done.toNat + left = times.toNat

namespace RepeatState.Due

variable {state : RepeatState} {left : Nat}

theorem inRange (h : state.Due (left + 1)) : (TaskKind.repeat state).InRange := by
  obtain ⟨times, ht, hle, hcount⟩ := h
  intro n hn
  rw [ht, Option.some.injEq] at hn
  subst hn
  exact ⟨UInt32.lt_iff_toNat_lt.2 (by omega), hle⟩

theorem not_isFull (h : state.Due (left + 1)) : (TaskKind.repeat state).isFull = false := by
  have hin := h.inRange
  obtain ⟨times, ht, _⟩ := h
  exact next_ne_zero (hin times ht).1

theorem next (h : state.Due (left + 1)) : ({ state with done := state.done + 1 }).Due left := by
  have hin := h.inRange
  obtain ⟨times, ht, hle, hcount⟩ := h
  refine ⟨times, ht, hle, ?_⟩
  rw [toNat_next (hin times ht).1]
  omega

end RepeatState.Due

namespace Turn

section Checked

variable (p : Pattern) (trap : TaskId → Run Status)

/-- One less, if there is one to take. -/
def less? (n : UInt32) : Option UInt32 := if 1 ≤ n then some (n - 1) else none

/-- Counts a wait down, and is caught by `trap` where nothing is left to take from. -/
def checkWait (id : TaskId) (task : Task) (remaining : Option UInt32) : Run Status := do
  let remaining ← match remaining with
    | some n => pure n
    | none => Binary32.toCount <$> eval p task.node task.params
  if remaining == 0 then
    setKind id (.wait (some 0))
    pure .ended
  else
    match less? remaining with
    | some n =>
      setKind id (.wait (some n))
      pure .paused
    | none => trap id

/-- Runs a body of the `repeat` `id`, and is caught by `trap` where the body has ended and cannot
be counted. -/
def checkBody (run : TaskId → Run Status) (id body : TaskId) : Run Status := do
  let status ← run body
  let t ← get
  if status == .ended && (t.tasks.get? id).any (·.kind.isFull) then trap id else pure status

/-- One frame of an unfinished task that is caught by `trap` wherever a counter would leave the
numbers that it has. A ramp that is new begins at zero. -/
def checkKind (run : TaskId → Run Status) (id : TaskId) (task : Task) : Run Status :=
  match task.kind with
  | .repeat state => runRepeat p (checkBody trap run id) id task state
  | .wait remaining => checkWait p trap id task remaining
  | kind => if kind.isFull then trap id else runKind p run id task

/-- The interpreter with all of its counters checked. -/
def checkTask : Nat → TaskId → Run Status
  | 0, _ => throw (.recursionLimit maxNestDepth)
  | fuel + 1, id => do
    let task ← task id
    if task.isFinished then pure .ended
    else
      modifyTask id (·.advance .running)
      let status ← checkKind p trap (checkTask fuel) id task
      if status == .ended then modifyTask id (·.advance .finished)
      pure status

end Checked

variable {p : Pattern} {trap : TaskId → Run Status} {run : TaskId → Run Status}
  {m room left : Nat} {t t' : Turn} {id body : TaskId} {ids : List TaskId} {task : Task}
  {st : RepeatState} {times : UInt32} {status : Status}

section Steps

theorem checkWait_eq (remaining : Option UInt32) :
    checkWait p trap id task remaining = runWait p id task remaining := by
  have last (n : UInt32) : (if n == 0 then do setKind id (.wait (some 0)); pure .ended
      else match less? n with
        | some n => do setKind id (.wait (some n)); pure .paused
        | none => trap id : Run Status) =
      (if n == 0 then do setKind id (.wait (some 0)); pure .ended
      else do setKind id (.wait (some (n - 1))); pure .paused) := by
    split
    · rfl
    · rename_i hn
      have hpos : n.toNat ≠ 0 := fun h => hn (beq_iff_eq.2 (UInt32.toNat.inj h))
      have hone : 1 ≤ n := UInt32.le_iff_toNat_le.2 (Nat.pos_of_ne_zero hpos)
      simp only [less?, if_pos hone]
  unfold checkWait runWait
  cases remaining with
  | some n => exact last n
  | none => exact bind_congr fun n => last n

theorem checkBody_eq {x : EStateM.Result PatternError Turn Status} (hr : run body t = x)
    (hroom : ∀ task, (state x).tasks.get? id = some task → task.kind.isFull = false) :
    checkBody trap run id body t = x := by
  cases x with
  | error e t' => rw [checkBody, bind_of_error hr]
  | ok answer t' =>
    have hfull : ((t'.tasks.get? id).any (·.kind.isFull)) = false := by
      cases ht : t'.tasks.get? id with
      | none => rfl
      | some task => exact hroom task ht
    rw [checkBody, bind_of_ok hr, get_bind]
    simp only [hfull, Bool.and_false, Bool.false_eq_true, if_false]
    rfl

/-- A `repeat` that finds out how often it runs finds no more than it may. -/
theorem le_maxRepeat_of_repeatTimes (hn : st.times = none)
    (h : repeatTimes p id task st t = .ok times t') : times ≤ maxRepeat := by
  have found (n : UInt32) (u : Turn) (h : (do
      let times := if maxRepeat < n then maxRepeat else n
      if maxRepeat < n then notify (.repeatClamped p.name task.node n maxRepeat)
      setKind id (.repeat { st with times := some times })
      pure times : Run UInt32) u = .ok times t') : times ≤ maxRepeat := by
    by_cases hlt : maxRepeat < n
    · simp only [hlt, if_true] at h
      cases h
      exact UInt32.le_refl _
    · simp only [hlt, if_false] at h
      cases h
      exact UInt32.not_lt.1 hlt
  unfold repeatTimes at h
  rw [hn] at h
  cases hc : p.child? task.node .times with
  | none =>
    rw [hc] at h
    exact found 0 t h
  | some node =>
    rw [hc] at h
    obtain ⟨n, u, _, h⟩ := ok_of_bind h
    exact found n u h

theorem Counts.counting (h : Counts p id task st t times t')
    (ht : t.tasks.get? id = some (task.advance .running)) (hk : task.kind = .repeat st) :
    ∃ task', t'.tasks.get? id = some task' ∧
      task'.kind = .repeat { st with times := some times } := by
  cases h with
  | known hs =>
    refine ⟨_, ht, ?_⟩
    rw [show (task.advance .running).kind = task.kind from rfl, hk, ← hs]
  | finds =>
    refine ⟨{ task.advance .running with kind := .repeat { st with times := some times } }, ?_, rfl⟩
    rw [Arena.get?_modify, if_pos rfl, ht]
    rfl

theorem Counts.tallies (h : Counts p id task st t times t') (hs : t.tasks.Sound)
    (hc : t.tasks.Counted ∅) (ht : t.tasks.get? id = some (task.advance .running))
    (hk : task.kind = .repeat st) : t.tasks.Tallies {id} t'.tasks := by
  have hall := hc.mono (Set.empty_subset {id})
  cases h with
  | known => exact hs.tallies hall
  | finds =>
    apply hs.tallies_modify hall Set.subset_union_left
    intro task' ht'
    rw [ht, Option.some.injEq] at ht'
    subst ht'
    refine ⟨?_, fun _ hid => absurd rfl hid⟩
    intro n hn
    rw [show (task.advance .running).kind = task.kind from rfl, hk] at hn
    cases hn

end Steps

/-- Where the counters are in range, `run` goes just as the interpreter with this fuel, and leaves
them in range. -/
def Checks (p : Pattern) (m : Nat) (run : TaskId → Run Status) : Prop :=
  ∀ id t, t.tasks.Sound → t.tasks.Bounded → t.tasks.Counted ∅ →
    (state (runTask p m id t)).tasks.NoWrap →
    run id t = runTask p m id t ∧ t.tasks.Tallies ∅ (state (runTask p m id t)).tasks

theorem Checks.of_eq (h : Checks p m run) {x : EStateM.Result PatternError Turn Status}
    (hs : t.tasks.Sound) (hb : t.tasks.Bounded) (hc : t.tasks.Counted ∅)
    (hr : runTask p m id t = x) (hw : (state x).tasks.NoWrap) :
    run id t = x ∧ t.tasks.Tallies ∅ (state x).tasks := by
  subst hr
  exact h id t hs hb hc hw

theorem Checks.sequence (h : Checks p m run) (hs : t.tasks.Sound) (hb : t.tasks.Bounded)
    (hc : t.tasks.Counted ∅)
    (hw : (state (runSequence (runTask p m) ids status t)).tasks.NoWrap) :
    runSequence run ids status t = runSequence (runTask p m) ids status t ∧
      t.tasks.Tallies ∅ (state (runSequence (runTask p m) ids status t)).tasks := by
  let P (u : Turn) : Prop := t.tasks.Tallies ∅ u.tasks ∧ u.tasks.Bounded
  have step : ∀ id ∈ ids, ∀ u, P u → u.tasks.isFinished id = false →
      (state (runTask p m id u)).tasks.NoWrap →
      run id u = runTask p m id u ∧ P (state (runTask p m id u)) := by
    rintro id _ u ⟨htallies, hbounded⟩ _ hw
    obtain ⟨hsame, hmore⟩ := h id u htallies.sound hbounded htallies.counted hw
    have hpersists := persists_runTask p m id htallies.sound hw
    exact ⟨hsame, htallies.trans hmore, hpersists.bounded hbounded⟩
  obtain ⟨hsame, htallies, _⟩ := sequence_congr (fun _ h => h.1.sound) step ⟨hs.tallies hc, hb⟩ hw
  exact ⟨hsame, htallies⟩

/-- Two runs of a task agree, and count the frame of the task. -/
structure Agree (id : TaskId) (a : Arena) (x y : EStateM.Result PatternError Turn Status) :
    Prop where
  same : x = y
  tallies : a.TalliesBut id (answer y) (state y).tasks

section Bodies

theorem runBodies_of_bare (ht : t.tasks.get? id = some task) (hc : task.children = []) :
    runBodies p run room id left t = .ok .ended t := by
  cases left with
  | zero =>
    rw [runBodies, bind_of_ok (task_of_some ht), hc]
    rfl
  | succ left =>
    rw [runBodies_succ, bind_of_ok (task_of_some ht), hc]
    rfl

/-- The bodies that a `repeat` has left are run by `run` as by the interpreter with this fuel. -/
def ChecksBodies (p : Pattern) (m room : Nat) (id : TaskId) (left : Nat)
    (run : TaskId → Run Status) : Prop :=
  ∀ t task st, t.tasks.Sound → t.tasks.Bounded → t.tasks.Counted {id} →
    t.tasks.get? id = some task → task.kind = .repeat st → st.room = room →
    (0 < left → st.Due left) →
    (state (runBodies p (runTask p m) room id left t)).tasks.NoWrap →
    Agree id t.tasks (runBodies p run room id left t) (runBodies p (runTask p m) room id left t)

/-- A `repeat` that counts a body stays in range if another one is due. -/
theorem ChecksBodies.ended (h : ChecksBodies p m room id left run) (hs : t.tasks.Sound)
    (hb : t.tasks.Bounded) (hc : t.tasks.Counted ∅)
    (ht : (t.shed body).tasks.get? id = some task) (hk : task.kind = .repeat st)
    (hroom : st.room = room) (hd : st.Due (left + 1))
    (hw : (state (endBody p (runTask p m) room id body left t)).tasks.NoWrap) :
    Agree id t.tasks (endBody p run room id body left t)
      (endBody p (runTask p m) room id body left t) := by
  have hcount := tallies_countBody hs hc (by rw [hk]; rfl) ht
  by_cases hl : left = 0 ∨ t.bullet.vanished = true
  · rw [endBody_of_last ht hl, endBody_of_last ht hl]
    exact ⟨rfl, hcount, fun hne => absurd rfl hne⟩
  · have hkind : task.countBody.kind = .repeat { st with done := st.done + 1 } := by
      rw [Task.countBody, hk]
    have hin : task.countBody.kind.InRange := by
      obtain ⟨next, rfl⟩ := Nat.exists_eq_succ_of_ne_zero fun hz => hl (.inl hz)
      rw [hkind]
      exact hd.next.inRange
    have hcounted : t.tasks.Tallies ∅ ((t.shed body).countBody id task).tasks :=
      { hcount with counted := hcount.counted.of_inRange (get?_counted ht) hin }
    rw [endBody_of_due ht hl] at hw
    rw [endBody_of_due ht hl, endBody_of_due ht hl]
    cases hb' : rebind p room id task t.bullet ((t.shed body).countBody id task) with
    | error e t' =>
      have hbind := hcounted.bind fun h h' => tallies_rebind h h' hb'
      exact ⟨rfl, hbind.but⟩
    | ok fresh t' =>
      simp only [hb'] at hw ⊢
      have hbind := hcounted.bind fun h h' => tallies_rebind h h' hb'
      have hadopt := hbind.bind fun h h' => tallies_adopt id fresh h h'
      have hw' := (evolves_runBodies p m room id left hadopt.sound).grows.noWrap hw
      have hreach : task.countBody.kind.reach = room + 1 := by
        rw [hkind, ← hroom]
        rfl
      obtain ⟨hagain, hget, _⟩ := persists_again hcount.sound (get?_counted ht) hreach
        (Arena.grows_modify.noWrap hw') hb'
      have hbounded := ((persists_countBody hs ht).trans hagain).bounded hb
      obtain ⟨hsame, htallies⟩ := h _ _ _ hadopt.sound hbounded
        (hadopt.counted.mono (Set.empty_subset _)) hget hkind hroom (fun _ => hd.next) hw
      exact ⟨hsame, hadopt.andBut htallies⟩

/-- A `repeat` counts the bodies that end one by one, and nothing else changes its count. -/
theorem Checks.bodies (h : Checks p m run) (trap : TaskId → Run Status) (room : Nat)
    (id : TaskId) (left : Nat) : ChecksBodies p m room id left (checkBody trap run id) := by
  induction left with
  | zero =>
    intro t task st hs hb hc ht hk hroom hd hw
    refine ⟨rfl, ?_⟩
    cases hchildren : task.children with
    | nil =>
      rw [runBodies_of_bare ht hchildren]
      exact ⟨hs.tallies hc, fun hne => absurd rfl hne⟩
    | cons body rest =>
      rw [runBodies_of_spent ht hchildren]
      exact ⟨hs.tallies_release hc, fun hne => absurd rfl hne⟩
  | succ left ih =>
    intro t task st hs hb hc ht hk hroom hd hw
    have hdue := hd (Nat.succ_pos left)
    have hin : task.kind.InRange := hk ▸ hdue.inRange
    have hcounted := hc.of_inRange ht hin
    cases hchildren : task.children with
    | nil =>
      rw [runBodies_of_bare ht hchildren, runBodies_of_bare ht hchildren]
      exact ⟨rfl, (hs.tallies hcounted).but⟩
    | cons body rest =>
      have hbody : body ∈ task.children := hchildren ▸ List.mem_cons_self
      obtain ⟨calls, hruns⟩ := runs_task p m body t
      -- The `repeat` is not touched while its body runs, so that its count has room.
      have same {x : EStateM.Result PatternError Turn Status} (hr : runTask p m body t = x)
          (hw : (state x).tasks.NoWrap) :
          checkBody trap run id body t = x ∧ t.tasks.Tallies ∅ (state x).tasks := by
        obtain ⟨hsame, htallies⟩ := h.of_eq hs hb hcounted hr hw
        refine ⟨checkBody_eq hsame ?_, htallies⟩
        intro task' ht'
        rw [hr] at hruns
        have hkept := (get?_shed_of_child hs hb (htallies.grows.noWrap hw) ht hbody hruns).1
        rw [ht', Option.some.injEq] at hkept
        rw [hkept, hk]
        exact hdue.not_isFull
      cases hr : runTask p m body t with
      | error e t' =>
        rw [runBodies_of_error ht hchildren hr] at hw ⊢
        obtain ⟨hsame, htallies⟩ := same hr hw
        exact ⟨runBodies_of_error ht hchildren hsame, htallies.but⟩
      | ok answer t' =>
        by_cases ha : answer = .ended
        · subst ha
          have hrun := evolves_runTask p m body hs
          rw [hr] at hrun
          rw [runBodies_of_ended ht hchildren hr] at hw ⊢
          have hshed := (evolves_endBody p m room id body left hrun.sound).grows.noWrap hw
          have hw' := hrun.sound.evolves_release.grows.noWrap hshed
          obtain ⟨hsame, htallies⟩ := same hr hw'
          have hpersists := persists_runTask p m body hs (by rw [hr]; exact hw')
          rw [hr] at hpersists hruns
          have hkept := (get?_shed_of_child hs hb (hrun.grows.noWrap hw') ht hbody hruns).2
          obtain ⟨hsame', htallies'⟩ := ih.ended hrun.sound (hpersists.bounded hb)
            htallies.counted hkept hk hroom hdue hw
          rw [runBodies_of_ended ht hchildren hsame]
          exact ⟨hsame', htallies.andBut htallies'⟩
        · rw [runBodies_of_hold ht hchildren hr ha] at hw ⊢
          obtain ⟨hsame, htallies⟩ := same hr hw
          exact ⟨runBodies_of_hold ht hchildren hsame ha, htallies.but⟩

end Bodies

section Task

theorem checkKind_eq (hin : task.kind.InRange) (hk : task.kind.isRepeat = false) :
    checkKind p trap run id task = runKind p run id task := by
  unfold checkKind
  split
  · rename_i hkind
    rw [hkind] at hk
    cases hk
  · rename_i hkind
    rw [checkWait_eq, runKind, hkind]
  · rw [hin.not_isFull hk]
    rfl

theorem Checks.repeat (h : Checks p m run) (trap : TaskId → Run Status) (hs : t.tasks.Sound)
    (hb : t.tasks.Bounded) (hc : t.tasks.Counted ∅)
    (ht : t.tasks.get? id = some (task.advance .running))
    (hk : task.kind = .repeat st) (hin : task.kind.InRange)
    (hw : (state (runRepeat p (runTask p m) id task st t)).tasks.NoWrap) :
    Agree id t.tasks (runRepeat p (checkBody trap run id) id task st t)
      (runRepeat p (runTask p m) id task st t) := by
  obtain ⟨times, t₁, he, hcounts⟩ := counts_repeatTimes p id task st t
  rw [runRepeat, bind_of_ok he] at hw
  rw [runRepeat, runRepeat, bind_of_ok he, bind_of_ok he]
  have htallies := hcounts.tallies hs hc ht hk
  obtain ⟨task', ht', hk'⟩ := hcounts.counting ht hk
  have hle : times ≤ maxRepeat := by
    cases hn : st.times with
    | none => exact le_maxRepeat_of_repeatTimes hn he
    | some n =>
      rw [repeatTimes, hn] at he
      cases he
      rw [hk] at hin
      exact (hin times hn).2
  have hdue (hpos : 0 < times.toNat - st.done.toNat) :
      ({ st with times := some times }).Due (times.toNat - st.done.toNat) :=
    ⟨times, rfl, hle, Nat.add_sub_of_le (Nat.le_of_lt (Nat.lt_of_sub_pos hpos))⟩
  obtain ⟨hsame, hbut⟩ := h.bodies trap st.room id _ t₁ task' _ htallies.sound
    ((hcounts.persists hs ht hk).bounded hb) htallies.counted ht' hk' rfl hdue hw
  exact ⟨hsame, htallies.andBut hbut⟩

theorem Checks.kind (h : Checks p m run) (trap : TaskId → Run Status) (hs : t.tasks.Sound)
    (hb : t.tasks.Bounded) (hc : t.tasks.Counted ∅)
    (ht : t.tasks.get? id = some (task.advance .running))
    (hf : task.isFinished = false)
    (hw : (state (runKind p (runTask p m) id task t)).tasks.NoWrap) :
    Agree id t.tasks (checkKind p trap run id task t) (runKind p (runTask p m) id task t) := by
  have hin : task.kind.InRange :=
    hc id (task.advance .running) ht (isFinished_running hf) (Set.notMem_empty id)
  have leaf (hl : task.kind.isLeaf = true) (hn : task.kind.isFire = false)
      (he : runKind p run id task = runKind p (runTask p m) id task)
      (hk : task.kind.isRepeat = false) :
      Agree id t.tasks (checkKind p trap run id task t) (runKind p (runTask p m) id task t) := by
    rw [checkKind_eq hin hk, he]
    exact ⟨rfl, tallies_counts hs hc ht hl hn⟩
  cases hkind : task.kind with
  | action =>
    rw [checkKind_eq hin (by rw [hkind]; rfl)]
    simp only [runKind, hkind] at hw ⊢
    obtain ⟨hsame, htallies⟩ := h.sequence hs hb hc hw
    exact ⟨hsame, htallies.but⟩
  | bullet =>
    rw [checkKind_eq hin (by rw [hkind]; rfl)]
    simp only [runKind, hkind] at hw ⊢
    obtain ⟨hsame, htallies⟩ := h.sequence hs hb hc hw
    exact ⟨hsame, htallies.but⟩
  | «repeat» st =>
    simp only [runKind, checkKind, hkind] at hw ⊢
    exact h.repeat trap hs hb hc ht hkind hin hw
  | fire st =>
    rw [checkKind_eq hin (by rw [hkind]; rfl)]
    have hact : Acts p id task t _ _ := acts_fire hkind
    simp only [runKind, hkind]
    exact ⟨rfl, (hact.tallies hs hc (by rw [hkind]; rfl)).but⟩
  | vanish =>
    rw [checkKind_eq hin (by rw [hkind]; rfl)]
    simp only [runKind, hkind]
    exact ⟨rfl, (hs.tallies hc).but⟩
  | changeDirection st =>
    apply leaf <;> simp only [runKind, hkind] <;> rfl
  | changeSpeed st =>
    apply leaf <;> simp only [runKind, hkind] <;> rfl
  | accel st =>
    apply leaf <;> simp only [runKind, hkind] <;> rfl
  | wait remaining =>
    apply leaf <;> simp only [runKind, hkind] <;> rfl

/-- The checked interpreter goes just as the interpreter itself: no counter is caught. -/
theorem checks_task (p : Pattern) (trap : TaskId → Run Status) (m : Nat) :
    Checks p m (checkTask p trap m) := by
  induction m with
  | zero => exact fun id t hs hb hc hw => ⟨rfl, hs.tallies hc⟩
  | succ m ih =>
    intro id t hs hb hc hw
    cases ht : t.tasks.get? id with
    | none =>
      have hstale : runTask p (m + 1) id t = .error (.staleTask id) t := by
        rw [runTask, bind_of_error (task_of_none ht)]
      have hchecked : checkTask p trap (m + 1) id t = .error (.staleTask id) t := by
        rw [checkTask, bind_of_error (task_of_none ht)]
      rw [hstale, hchecked]
      exact ⟨rfl, hs.tallies hc⟩
    | some task =>
      cases hf : task.isFinished with
      | true =>
        rw [runTask_of_finished m ht hf, checkTask, bind_of_ok (task_of_some ht)]
        simp only [hf, if_true]
        exact ⟨rfl, hs.tallies hc⟩
      | false =>
        have hstart := tallies_start id hs hc
        have hbounded := (persists_start id hs).bounded hb
        obtain ⟨_, hstate⟩ := runTask_of_some (p := p) m ht hf rfl
        rw [hstate] at hw ⊢
        obtain ⟨hsame, htallies⟩ := ih.kind trap hstart.sound hbounded hstart.counted
          (get?_start ht) hf ((grows_close id _).noWrap hw)
        refine ⟨?_, tallies_close (hstart.andBut htallies)⟩
        have hadvance : modifyTask id (·.advance .running) t = .ok () (t.start id) := rfl
        rw [checkTask, runTask, bind_of_ok (task_of_some ht), bind_of_ok (task_of_some ht)]
        simp only [hf, Bool.false_eq_true, if_false]
        rw [bind_of_ok hadvance, bind_of_ok hadvance]
        exact bind_congr_at hsame _

theorem replays_checkTask (a : Arena) (trap : Pattern → TaskId → Run Status) :
    Replays (fun a' => a.Tallies ∅ a' ∧ a'.Bounded) fun p => checkTask p (trap p) maxTaskChain where
  sound h := h.1.sound
  release id h := by
    have hr : Arena.Persists _ (Arena.release _ id).2 := h.1.sound.persists_release
    exact ⟨h.1.bind Arena.Sound.tallies_release, hr.bounded h.2⟩
  task p id t h hw := by
    obtain ⟨hsame, htallies⟩ :=
      checks_task p (trap p) maxTaskChain id t h.1.sound h.2 h.1.counted hw
    have hpersists := persists_runTask p maxTaskChain id h.1.sound hw
    exact ⟨hsame, h.1.trans htallies, hpersists.bounded h.2⟩

end Task

end Turn

theorem Simulation.tallies_spawn {s : Simulation} (p : Pattern) (pos : Point) (hs : s.tasks.Sound)
    (hc : s.tasks.Counted ∅) : s.tasks.Tallies ∅ (s.spawn p pos).2.tasks := by
  unfold spawn
  split
  · exact hs.tallies hc
  · split
    · exact hs.tallies hc
    · simp only [activate]
      split
      · rename_i hb
        exact Binder.tallies_bindRoots (s := ⟨s.tasks, _⟩) hs hc hb
      · rename_i hb
        exact Binder.tallies_bindRoots (s := ⟨s.tasks, _⟩) hs hc hb

namespace HostCall

variable {s : Simulation}

/-- Whatever the host calls, the counters stay in range and waits do not grow. -/
theorem tallies_performAll (calls : List HostCall) (hs : s.tasks.Sound) (hb : s.tasks.Bounded)
    (hc : s.tasks.Counted ∅) (hw : (performAll calls s).tasks.NoWrap) :
    s.tasks.Tallies ∅ (performAll calls s).tasks ∧ (performAll calls s).tasks.Bounded := by
  apply replays_performAll (Turn.replays_checkTask s.tasks fun _ _ => pure .ended) _ calls
    ⟨hs.tallies hc, hb⟩ hw
  rintro s' p pos ⟨htallies, hbounded⟩
  refine ⟨htallies.bind (Simulation.tallies_spawn p pos), ?_⟩
  exact (Simulation.persists_spawn p pos htallies.sound).bounded hbounded

/-- The counters of tasks stay in range in every run in which no slot of a task was freed so often
that its generations began anew. A ramp that is not over has not reached its term, and a `repeat`
that is not over and knows its count has not reached it, which is no more than `maxRepeat`. What is
left of a wait only becomes less once it is known, until the task is gone. So no frame counts
further than there are numbers: it is the same for the interpreter that checks each count, whatever
that does where a check fails. -/
theorem counters_stay_in_range (capacity : Nat) (seed : UInt64) (rank : Float32)
    (cull : Option Bounds) (margin : Float32) (earlier later : List HostCall) :
    let s := performAll earlier (.init capacity seed rank cull margin)
    let s' := performAll later s
    s'.tasks.NoWrap →
    (∀ id task, s'.tasks.get? id = some task → task.isFinished = false → task.kind.InRange) ∧
    (∀ id task n, s.tasks.get? id = some task → task.kind = .wait (some n) →
      s'.tasks.get? id = none ∨
        ∃ task' m, s'.tasks.get? id = some task' ∧ task'.kind = .wait (some m) ∧ m ≤ n) ∧
    ∀ (trap : Pattern → TaskId → Run Status) (dt : Float32), (s'.update dt).tasks.NoWrap →
      s'.updateBy (fun p => Turn.checkTask p (trap p) maxTaskChain) dt = s'.update dt := by
  intro s s' hw
  have hs : s.tasks.Sound := (evolves_performAll earlier Arena.sound_empty).sound
  have hs' : s.tasks.Evolves s'.tasks := evolves_performAll later hs
  obtain ⟨hbefore, hb⟩ := tallies_performAll earlier Arena.sound_empty Arena.bounded_empty
    Arena.counted_empty (hs'.grows.noWrap hw)
  obtain ⟨hafter, hb'⟩ := tallies_performAll later hs hb hbefore.counted hw
  refine ⟨?_, ?_, ?_⟩
  · intro id task ht hf
    exact hafter.counted id task ht hf (Set.notMem_empty id)
  · intro id task n ht hk
    apply (hafter.wanes id task ht).imp (fun hd => hd.get? hw)
    rintro ⟨task', ht', hwanes⟩
    obtain ⟨m, hm, hle⟩ := hwanes n hk
    exact ⟨task', m, ht', hm, hle⟩
  · intro trap dt hw'
    exact (Simulation.replays_update (Turn.replays_checkTask s'.tasks trap)
      ⟨hafter.sound.tallies hafter.counted, hb'⟩ hw').1

end HostCall

/-- A pattern that changes its speed for as many frames as can be counted, and waits as long. -/
def Pattern.vigil : Pattern :=
  let p := ((ofName "vigil").addNode root .action).2
  let p := (p.setLabel ⟨1⟩ "top").1
  let p := (p.addNode ⟨1⟩ .repeat).2
  let p := (p.addNode ⟨2⟩ .times).2
  let p := p.setExpr ⟨3⟩ (.const 2)
  let p := (p.addNode ⟨2⟩ .action).2
  let p := (p.addNode ⟨4⟩ .changeSpeed).2
  let p := (p.addNode ⟨5⟩ .speed).2
  let p := (p.addNode ⟨5⟩ .term).2
  let p := p.setExpr ⟨7⟩ (.const 10000000000)
  let p := (p.addNode ⟨4⟩ .wait).2
  p.setExpr ⟨8⟩ (.const 10000000000)

/-- A vigil has counted one frame of its wait after its first frame, from the most that there can
be, and counts on with room for it. -/
theorem HostCall.vigil_stays_in_range :
    let s := performAll [.spawn .vigil .zero, .update 0] (.init 4 0 0 none 0)
    let s' := performAll [.update 0] s
    s'.tasks.NoWrap ∧ (s'.update 0).tasks.NoWrap ∧
    (∃ task, s.tasks.get? ⟨4, 0⟩ = some task ∧ task.kind = .wait (some 4294967294)) ∧
    (∃ task m, s'.tasks.get? ⟨4, 0⟩ = some task ∧ task.kind = .wait (some m) ∧
      m ≤ 4294967294) ∧
    (∀ id task, s'.tasks.get? id = some task → task.isFinished = false → task.kind.InRange) ∧
    s'.updateBy (fun p => Turn.checkTask p (fun _ => pure .paused) maxTaskChain) 0 =
      s'.update 0 := by
  intro s s'
  have hw : s'.tasks.NoWrap := by decide +kernel
  have hw' : (s'.update 0).tasks.NoWrap := by decide +kernel
  have hlive : s'.tasks.contains ⟨4, 0⟩ = true := by decide +kernel
  have hleft : ((s.tasks.get? ⟨4, 0⟩).bind fun task =>
      match task.kind with
      | .wait remaining => remaining
      | _ => none) = some 4294967294 := by decide +kernel
  obtain ⟨task, ht, hk⟩ := Option.bind_eq_some_iff.1 hleft
  have hkind : task.kind = .wait (some 4294967294) := by
    split at hk
    · rename_i h
      rw [h, hk]
    · cases hk
  obtain ⟨hrange, hwanes, hchecked⟩ := counters_stay_in_range 4 0 0 none 0
    [.spawn .vigil .zero, .update 0] [.update 0] hw
  refine ⟨hw, hw', ⟨task, ht, hkind⟩, ?_, hrange, hchecked (fun _ _ => pure .paused) 0 hw'⟩
  apply (hwanes _ _ _ ht hkind).resolve_left
  intro hnone
  simp [Arena.contains, s', s, hnone] at hlive

end Barrage

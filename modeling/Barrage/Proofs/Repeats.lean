import Barrage.Proofs.Rounds

namespace Barrage.Turn

variable {p : Pattern} {fuel m f : Nat} {id body : TaskId} {task : Task} {st : RepeatState}
  {times done : UInt32} {t : Nat → Turn} {u u' v : Turn} {a : Arena} {status : Status}

/-- A `repeat` is run in the frames `0` to `m`, from the states `t`, for a bullet that flies. No frame
fails, the last one ends it, and in between nobody touches the tasks below it, which were new in
`a`. -/
structure RepeatFrames (run : Run Status) (id : TaskId) (a : Arena) (m : Nat) (t : Nat → Turn) :
    Prop where
  bound : a.Idles (t 0).tasks [id]
  pool : ∀ f ≤ m, (t f).pool.Sound
  runs : ∀ f ≤ m, ∃ status t', run (t f) = .ok status t' ∧ t'.bullet.vanished = false ∧
    (status = .ended ↔ f = m)
  carried : ∀ f < m, (state (run (t f))).tasks.Idles (t (f + 1)).tasks [id]
  noWrap : (state (run (t m))).tasks.NoWrap

theorem RepeatFrames.sound {run : Run Status} (h : RepeatFrames run id a m t) (hf : f ≤ m) :
    (t f).tasks.Sound := by
  cases f with
  | zero => exact h.bound.sound
  | succ f => exact (h.carried f hf).sound

/-- No generation has begun anew before the last frame. -/
theorem RepeatFrames.noWrap_run (h : RepeatFrames (runTask p fuel id) id a m t) (hf : f ≤ m) :
    (state (runTask p fuel id (t f))).tasks.NoWrap := by
  induction hf using Nat.decreasingInduction with
  | self => exact h.noWrap
  | of_succ f hlt ih =>
    have hnext := evolves_runTask p fuel id (h.sound hlt)
    exact ((h.carried f hlt).grows.trans hnext.grows).noWrap ih

/-- A frame of a `repeat` that knows how often it runs its body is a run of the bodies it has left. -/
theorem frame_of_times (fuel : Nat) (ht : u.tasks.get? id = some task)
    (hf : task.isFinished = false) (hk : task.kind = .repeat st)
    (hn : repeatTimes p id task st (u.start id) = .ok times v) :
    let rest := runBodies p (runTask p fuel) st.room id (times.toNat - st.done.toNat) v
    answer (runTask p (fuel + 1) id u) = answer rest ∧
      state (runTask p (fuel + 1) id u) = (state rest).close id (answer rest) ∧
      logTask p (fuel + 1) id u =
        ⟨id, u, answer (runTask p (fuel + 1) id u), state (runTask p (fuel + 1) id u)⟩ ::
          logBodies p (runTask p fuel) (logTask p fuel) st.room id
            (times.toNat - st.done.toNat) v := by
  intro rest
  have hrun : runKind p (runTask p fuel) id task (u.start id) = rest := by
    rw [runKind, hk]
    exact bind_of_ok hn
  have hlog : logWithin p (runTask p fuel) (logTask p fuel) id u =
      logBodies p (runTask p fuel) (logTask p fuel) st.room id
        (times.toNat - st.done.toNat) v := by
    rw [logWithin_of_unfinished ht hf, logKind, hk]
    simp only [hn]
  obtain ⟨hanswer, hstate⟩ := runTask_of_some fuel ht hf hrun
  exact ⟨hanswer, hstate, by rw [logTask, hlog]⟩

/-- One run of a body, in a frame of the `repeat`. -/
structure Round where
  frame : Nat
  call : Call

/-- The body ends with this run. -/
def Round.ends (c : Round) : Bool :=
  match c.call.answer with
  | .ok .ended => true
  | _ => false

theorem Round.ends_iff {c : Round} : c.ends = true ↔ c.call.answer = .ok .ended := by
  unfold Round.ends
  split <;> simp_all

namespace Repeater

variable {l : Repeater} {fresh : TaskId} {rounds rest : List Round} {c e : Round}

def logRest (l : Repeater) (done : UInt32) : Turn → List Call :=
  logBodies l.pattern l.runBody (logTask l.pattern l.fuel) l.room l.id
    (l.times.toNat - done.toNat)

/-- What is run within a round. -/
def log (l : Repeater) (c : Round) : List Call := logTask l.pattern l.fuel c.call.task c.call.before

/-- The state after the last of the frames. -/
def final (l : Repeater) (m : Nat) (t : Nat → Turn) : Turn := state (l.run (t m))

/-- The frame that begins with `u` has come to `v`, where `done` bodies have ended. -/
structure Reaches (l : Repeater) (u : Turn) (done : UInt32) (v : Turn) : Prop where
  answers : answer (l.run u) = answer (l.runRest done v)
  leaves : state (l.run u) =
    (state (l.runRest done v)).close l.id (answer (l.runRest done v))

theorem Holds.frame (h : l.Holds body done u) : l.Reaches u done (u.start l.id) ∧
    logTask l.pattern (l.fuel + 1) l.id u =
      ⟨l.id, u, answer (l.run u), state (l.run u)⟩ :: l.logRest done (u.start l.id) := by
  have hn : repeatTimes l.pattern l.id (l.atWork body done) ⟨some l.times, done, l.room⟩
      (u.start l.id) = .ok l.times (u.start l.id) := rfl
  obtain ⟨hanswer, hstate, hlog⟩ := frame_of_times l.fuel h.get? rfl rfl hn
  exact ⟨⟨hanswer, hstate⟩, hlog⟩

theorem rebind_atWork : rebind l.pattern l.room l.id (l.atWork body done) u.bullet
    ((u.shed body).countBody l.id (l.atWork body done)) =
      l.bindBody u.bullet (l.counted body done u) := rfl

/-- Once a body has ended it is counted, and another one is bound. -/
theorem evolves_bindBody (hs : u.tasks.Sound)
    (hb : l.bindBody u.bullet (l.counted body done u) = .ok fresh v) :
    u.tasks.Evolves v.tasks := by
  rw [← rebind_atWork] at hb
  have hcount := evolves_countBody body l.id (l.atWork body done) hs
  exact hcount.trans (evolves_rebind hcount.sound hb)

/-- The runs of bodies from `u` in frame `f` up to the end, where `body` is held and `done` others
have ended. -/
inductive Serves (l : Repeater) (m : Nat) (t : Nat → Turn) :
    Nat → TaskId → UInt32 → Turn → List Round → Prop where
  | last {body : TaskId} {done : UInt32} {u u' : Turn} (h : l.Holds body done u)
      (hr : l.runBody body u = .ok .ended u') (hl : done + 1 = l.times)
      (hs : l.final m t = (l.counted body done u').close l.id (.ok .ended)) :
      Serves l m t m body done u [⟨m, body, u, .ok .ended, u'⟩]
  | renews {f : Nat} {body fresh : TaskId} {done : UInt32} {u u' v : Turn} {rounds : List Round}
      (h : l.Holds body done u) (hr : l.runBody body u = .ok .ended u')
      (hv : u'.bullet.vanished = false)
      (hb : l.bindBody u'.bullet (l.counted body done u') = .ok fresh v)
      (hs : Serves l m t f fresh (done + 1) (v.adopt l.id fresh) rounds) :
      Serves l m t f body done u (⟨f, body, u, .ok .ended, u'⟩ :: rounds)
  | resumes {f : Nat} {body : TaskId} {done : UInt32} {status : Status} {u u' : Turn}
      {rounds : List Round} (h : l.Holds body done u) (hr : l.runBody body u = .ok status u')
      (he : status ≠ .ended) (hi : u'.tasks.Persists (t (f + 1)).tasks)
      (hn : l.Holds body done (t (f + 1)))
      (hs : Serves l m t (f + 1) body done ((t (f + 1)).start l.id) rounds) :
      Serves l m t f body done u (⟨f, body, u, .ok status, u'⟩ :: rounds)

theorem Reaches.noWrap {x : Turn} (h : l.Reaches u done v) (hw : (state (l.run u)).tasks.NoWrap)
    (hx : x.tasks.Evolves (state (l.runRest done v)).tasks) : x.tasks.NoWrap := by
  rw [h.leaves] at hw
  exact hx.grows.noWrap (noWrap_close hx.sound hw)

/-- A frame goes on from a body that does not end into the next frame, with the same body. -/
theorem Holds.serves_hold (hF : RepeatFrames l.run l.id a m t) (hf : f ≤ m)
    (h : l.Holds body done u) (hreach : l.Reaches (t f) done u)
    (hr : l.runBody body u = .ok status u') (he : status ≠ .ended)
    (hnext : f < m → l.Holds body done (t (f + 1)) →
      ∃ rounds, l.Serves m t (f + 1) body done ((t (f + 1)).start l.id) rounds) :
    ∃ rounds, l.Serves m t f body done u rounds := by
  have hrest : l.runRest done u = .ok status u' := by
    rw [runRest, h.left_succ]
    exact runBodies_of_hold h.get? rfl hr he
  have hw : u'.tasks.NoWrap := by
    apply hreach.noWrap (hF.noWrap_run hf)
    rw [hrest]
    exact (((logged_task _ _ _ _).ran hr).evolves h.sound).sound.evolves
  obtain ⟨_, v, hrun, _, hend⟩ := hF.runs f hf
  obtain ⟨hanswer, hstate⟩ := hreach
  rw [hrest, hrun] at hanswer hstate
  cases hanswer
  rw [answer, close_of_ne (by simpa using he)] at hstate
  cases hstate
  have hlt : f < m := Nat.lt_of_le_of_ne hf fun hfm => he (hend.2 hfm)
  have hidle := hF.carried f hlt
  rw [hrun] at hidle
  have hw' := (evolves_runTask l.pattern (l.fuel + 1) l.id (hF.sound hlt)).grows.noWrap
    (hF.noWrap_run hlt)
  have hholds := (h.keep hr hw).idle hidle (hF.pool (f + 1) hlt) hw'
  obtain ⟨rounds, hs⟩ := hnext hlt hholds
  exact ⟨_, .resumes h hr he hidle.toPersists hholds hs⟩

/-- A frame goes on from a body that ends to the next body, or the last one ends it. -/
theorem Holds.serves_ended (hF : RepeatFrames l.run l.id a m t) (hf : f ≤ m)
    (h : l.Holds body done u) (hreach : l.Reaches (t f) done u)
    (hr : l.runBody body u = .ok .ended u')
    (hnext : ∀ fresh v, l.Holds fresh (done + 1) v → l.Reaches (t f) (done + 1) v →
      ∃ rounds, l.Serves m t f fresh (done + 1) v rounds) :
    ∃ rounds, l.Serves m t f body done u rounds := by
  have hsound := (((logged_task _ _ _ _).ran hr).evolves h.sound).sound
  have hrest : l.runRest done u = endBody l.pattern l.runBody l.room l.id body
      (l.times.toNat - (done + 1).toNat) u' := by
    rw [runRest, h.left_succ]
    exact runBodies_of_ended h.get? rfl hr
  have hw : u'.tasks.NoWrap := by
    apply hreach.noWrap (hF.noWrap_run hf)
    rw [hrest]
    exact hsound.evolves_release.trans (evolves_endBody _ _ _ _ _ _ hsound)
  obtain ⟨hget, _⟩ := h.shed hr hw
  obtain ⟨_, v, hrun, hv, hend⟩ := hF.runs f hf
  by_cases hl : l.times.toNat - (done + 1).toNat = 0 ∨ u'.bullet.vanished = true
  · have hlast : l.runRest done u = .ok .ended (l.counted body done u') :=
      hrest.trans (endBody_of_last hget hl)
    obtain ⟨hanswer, hstate⟩ := hreach
    rw [hlast, hrun] at hanswer hstate
    cases hanswer
    obtain rfl := hend.1 rfl
    have hbullet : v.bullet = u'.bullet := by
      rw [show v = _ from hstate, bullet_close]
      rfl
    rw [hbullet] at hv
    have hdone : done + 1 = l.times := by
      have hlt := UInt32.lt_iff_toNat_lt.1 h.more
      have hzero := hl.resolve_right (by simp [hv])
      have hsucc := h.toNat_succ
      exact UInt32.toNat_inj.1 (by omega)
    refine ⟨_, .last h hr hdone ?_⟩
    rw [final, hrun]
    exact hstate
  · have hdue := hrest.trans (endBody_of_due hget hl)
    rw [not_or, Bool.not_eq_true] at hl
    rw [rebind_atWork] at hdue
    cases hb : l.bindBody u'.bullet (l.counted body done u') with
    | error e v' =>
      have hanswer := hreach.answers
      rw [hdue, hb, hrun] at hanswer
      cases hanswer
    | ok fresh v' =>
      rw [hb] at hdue
      have hreach' : l.Reaches (t f) (done + 1) (v'.adopt l.id fresh) := by
        constructor
        · rw [hreach.answers, hdue]
          rfl
        · rw [hreach.leaves, hdue]
          rfl
      have hbind := evolves_bindBody hsound hb
      have hw' := hreach'.noWrap (hF.noWrap_run hf)
        (evolves_runBodies _ _ _ _ _ (evolves_adopt l.id fresh hbind.sound).sound)
      have hmore : done + 1 < l.times := UInt32.lt_iff_toNat_lt.2 (by omega)
      obtain ⟨hholds, _⟩ := h.renew hr hmore hb hw'
      obtain ⟨rounds, hs⟩ := hnext fresh _ hholds hreach'
      exact ⟨_, .renews h hr hl.2 hb hs⟩

/-- A frame of a `repeat` goes through the bodies that it comes to. -/
theorem Holds.serves_frame (hF : RepeatFrames l.run l.id a m t) (hf : f ≤ m)
    (hnext : f < m → ∀ body done, l.Holds body done (t (f + 1)) →
      ∃ rounds, l.Serves m t (f + 1) body done ((t (f + 1)).start l.id) rounds)
    (h : l.Holds body done u) (hreach : l.Reaches (t f) done u) :
    ∃ rounds, l.Serves m t f body done u rounds := by
  induction hk : l.times.toNat - done.toNat generalizing body done u with
  | zero => exact absurd (hk.symm.trans h.left_succ) (Nat.succ_ne_zero _).symm
  | succ left ih =>
    cases hr : l.runBody body u with
    | error e u' =>
      have hrest : l.runRest done u = .error e u' := by
        rw [runRest, hk]
        exact runBodies_of_error h.get? rfl hr
      obtain ⟨_, _, hrun, _⟩ := hF.runs f hf
      have hanswer := hreach.answers
      rw [hrest, hrun] at hanswer
      cases hanswer
    | ok status u' =>
      by_cases he : status = .ended
      · subst he
        rw [h.left_succ, Nat.succ.injEq] at hk
        exact h.serves_ended hF hf hreach hr fun _ _ hn hreach' => ih hn hreach' hk
      · exact h.serves_hold hF hf hreach hr he fun hlt => hnext hlt body done

/-- From any frame on, a `repeat` goes through bodies up to its end. -/
theorem Holds.serves (hF : RepeatFrames l.run l.id a m t) (hf : f ≤ m) (h : l.Holds body done u)
    (hreach : l.Reaches (t f) done u) : ∃ rounds, l.Serves m t f body done u rounds := by
  induction hf using Nat.decreasingInduction generalizing body done u with
  | self => exact h.serves_frame hF (Nat.le_refl m) (fun hlt => absurd hlt (Nat.lt_irrefl m)) hreach
  | of_succ f hlt ih =>
    exact h.serves_frame hF (Nat.le_of_lt hlt)
      (fun _ body done hn => ih hn.start hn.frame.1) hreach

section Serves

theorem Serves.holds (h : l.Serves m t f body done u rounds) : l.Holds body done u := by
  cases h <;> assumption

theorem Serves.head (h : l.Serves m t f body done u rounds) :
    ∃ r v rest, rounds = ⟨f, body, u, r, v⟩ :: rest := by
  cases h <;> exact ⟨_, _, _, rfl⟩

theorem Serves.first_mem (h : l.Serves m t f body done u rounds) :
    ∃ c ∈ rounds, c.call.task = body := by
  obtain ⟨_, _, _, rfl⟩ := h.head
  exact ⟨_, List.mem_cons_self, rfl⟩

theorem Serves.grows (h : l.Serves m t f body done u rounds) :
    u.tasks.Grows (l.final m t).tasks := by
  induction h with
  | @last body done u u' h hr _ hs =>
    have hrun := ((logged_task _ _ _ _).ran hr).evolves h.sound
    have hcount := evolves_countBody body l.id (l.atWork body done) hrun.sound
    rw [hs]
    exact (hrun.trans hcount).grows.trans (grows_close _ _)
  | @renews f body fresh done u u' v rounds h hr _ hb _ ih =>
    have hrun := ((logged_task _ _ _ _).ran hr).evolves h.sound
    have hbind := evolves_bindBody hrun.sound hb
    exact (hrun.trans hbind).grows.trans (Arena.grows_modify.trans ih)
  | resumes h hr _ hi _ _ ih =>
    have hrun := ((logged_task _ _ _ _).ran hr).evolves h.sound
    exact hrun.grows.trans (hi.grows.trans (Arena.grows_modify.trans ih))

/-- Between the runs of two bodies, the first is gone for good before the second is there, unless
they are the same. -/
structure Passes (body next : TaskId) (u v : Turn) : Prop where
  persists : u.tasks.Persists v.tasks
  gone : next = body ∨ v.tasks.IsDead body
  fresh : next = body ∨ ∀ a : Arena, a.Persists u.tasks → a.get? next = none

/-- A body is run, and then it was the last one or another run follows. -/
theorem Serves.uncons (h : l.Serves m t f body done u rounds) (hw : (l.final m t).tasks.NoWrap) :
    ∃ status v rest, rounds = ⟨f, body, u, .ok status, v⟩ :: rest ∧
      l.runBody body u = .ok status v ∧
      (rest = [] ∧ v.tasks.Persists (l.final m t).tasks ∧ (l.final m t).tasks.IsDead body ∨
        ∃ g next k x, Passes body next v x ∧ l.Serves m t g next k x rest) := by
  cases h with
  | last h hr _ hs =>
    rw [hs] at hw ⊢
    obtain ⟨hp, hd, _⟩ := h.last hr hw
    exact ⟨_, _, _, rfl, hr, .inl ⟨rfl, hp, hd⟩⟩
  | renews h hr _ hb hs =>
    obtain ⟨_, hp, hd, hu⟩ := h.renew hr hs.holds.more hb (hs.grows.noWrap hw)
    exact ⟨_, _, _, rfl, hr, .inr ⟨_, _, _, _, ⟨hp, .inr hd, .inr hu⟩, hs⟩⟩
  | resumes h hr _ hi hn hs =>
    have hp := hi.bind fun h => persists_start l.id h
    exact ⟨_, _, _, rfl, hr, .inr ⟨_, _, _, _, ⟨hp, .inl rfl, .inl rfl⟩, hs⟩⟩

/-- The runs lie between the beginning and the end. -/
theorem Serves.within (h : l.Serves m t f body done u rounds) (hw : (l.final m t).tasks.NoWrap) :
    u.tasks.Persists (l.final m t).tasks ∧ ∀ c ∈ rounds, c.call.Within u (l.final m t) := by
  induction rounds generalizing f body done u with
  | nil =>
    obtain ⟨_, _, _, hnil⟩ := h.head
    cases hnil
  | cons c rest ih =>
    obtain ⟨_, v, _, hcons, hr, hrest⟩ := h.uncons hw
    cases hcons
    have hp : v.tasks.Persists (l.final m t).tasks := by
      obtain ⟨_, hp, _⟩ | ⟨_, _, _, _, hp, hs⟩ := hrest
      · exact hp
      · exact hp.persists.trans (ih hs).1
    have hrun := h.holds.persists hr (hp.grows.noWrap hw)
    refine ⟨hrun.trans hp, ?_⟩
    intro c hc
    rcases List.mem_cons.1 hc with rfl | hc
    · exact ⟨h.holds.sound.persists, hrun, hp⟩
    · obtain ⟨rfl, _⟩ | ⟨_, _, _, _, hp, hs⟩ := hrest
      · cases hc
      · obtain ⟨hpersists, hwithin⟩ := ih hs
        exact (hwithin c hc).widen (hrun.trans hp.persists) hpersists.sound.persists

/-- After the end no body is left. -/
theorem Serves.gone (h : l.Serves m t f body done u rounds) (hw : (l.final m t).tasks.NoWrap) :
    ∀ c ∈ rounds, (l.final m t).tasks.IsDead c.call.task := by
  induction rounds generalizing f body done u with
  | nil => simp
  | cons c rest ih =>
    obtain ⟨_, v, _, hcons, _, hrest⟩ := h.uncons hw
    cases hcons
    intro c hc
    obtain ⟨rfl, _, hd⟩ | ⟨_, next, _, x, hp, hs⟩ := hrest
    · rw [List.mem_singleton.1 hc]
      exact hd
    · rcases List.mem_cons.1 hc with rfl | hc
      · rcases hp.gone with rfl | hd
        · obtain ⟨e, he, heq⟩ := hs.first_mem
          exact heq ▸ ih hs e he
        · exact hd.grows (hs.within hw).1.grows
      · exact ih hs c hc

/-- Before a body is bound it is not there. -/
theorem Serves.unborn (h : l.Serves m t f body done u rounds) (hw : (l.final m t).tasks.NoWrap)
    (ha : a.Persists u.tasks) :
    ∀ c ∈ rounds, c.call.task = body ∨ a.get? c.call.task = none := by
  induction rounds generalizing f body done u with
  | nil => simp
  | cons c rest ih =>
    obtain ⟨_, v, _, hcons, hr, hrest⟩ := h.uncons hw
    cases hcons
    intro c hc
    rcases List.mem_cons.1 hc with rfl | hc
    · exact .inl rfl
    · obtain ⟨rfl, _⟩ | ⟨_, next, _, x, hp, hs⟩ := hrest
      · cases hc
      · have hwv := (hp.persists.trans (hs.within hw).1).grows.noWrap hw
        have hav := ha.trans (h.holds.persists hr hwv)
        rcases ih hs (hav.trans hp.persists) c hc with rfl | hn
        · rcases hp.fresh with rfl | hu
          · exact .inl rfl
          · exact .inr (hu a hav)
        · exact .inr hn

/-- While a body is run no other body is there. -/
theorem Serves.alone (h : l.Serves m t f body done u rounds) (hw : (l.final m t).tasks.NoWrap)
    (hc : c ∈ rounds) (he : e ∈ rounds) (hne : e.call.task ≠ c.call.task)
    (hb : c.call.before.tasks.Persists a) (ha : a.Persists c.call.after.tasks) :
    a.get? e.call.task = none := by
  induction rounds generalizing f body done u e with
  | nil => cases hc
  | cons d rest ih =>
    have hleft := ((h.within hw).2 c hc).left
    obtain ⟨_, v, _, hcons, _, hrest⟩ := h.uncons hw
    cases hcons
    obtain ⟨rfl, _⟩ | ⟨_, next, _, x, hp, hs⟩ := hrest
    · rw [List.mem_singleton] at hc he
      exact absurd (by rw [hc, he]) hne
    · rcases List.mem_cons.1 hc with rfl | hc' <;> rcases List.mem_cons.1 he with rfl | he'
      · exact absurd rfl hne
      · -- the other body comes later
        rcases hs.unborn hw (ha.trans hp.persists) e he' with heq | hn
        · rcases hp.fresh with hnext | hu
          · exact absurd (heq.trans hnext) hne
          · rw [heq]
            exact hu a ha
        · exact hn
      · -- the other body came before
        rcases hp.gone with rfl | hd
        · obtain ⟨d, hd, heq⟩ := hs.first_mem
          have hnone : a.get? d.call.task = none := ih hs hc' hd (heq ▸ hne)
          exact heq ▸ hnone
        · have hin := ((hs.within hw).2 c hc').entered.trans hb
          exact (hd.grows hin.grows).get? ((ha.trans hleft).grows.noWrap hw)
      · exact ih hs hc' he' hne

/-- Nothing is left below the `repeat` in the end. -/
theorem Serves.over (h : l.Serves m t f body done u rounds) (hw : (l.final m t).tasks.NoWrap) :
    (l.final m t).tasks.below [l.id] = {l.id} := by
  induction h with
  | last h hr _ hs =>
    rw [hs] at hw ⊢
    exact (h.last hr hw).2.2
  | renews _ _ _ _ _ ih => exact ih
  | resumes _ _ _ _ _ _ ih => exact ih

theorem Serves.last_ends (h : l.Serves m t f body done u rounds) :
    ∀ c ∈ rounds.getLast?, c.frame = m ∧ c.ends = true := by
  induction h with
  | last => simp [Round.ends]
  | renews _ _ _ _ hs ih =>
    obtain ⟨_, _, _, rfl⟩ := hs.head
    exact ih
  | resumes _ _ _ _ _ hs ih =>
    obtain ⟨_, _, _, rfl⟩ := hs.head
    exact ih

theorem Serves.count (h : l.Serves m t f body done u rounds) :
    done.toNat + rounds.countP Round.ends = l.times.toNat := by
  induction h with
  | last h _ hl _ =>
    rw [← hl, h.toNat_succ]
    rfl
  | renews h _ _ _ _ ih =>
    rw [List.countP_cons_of_pos rfl, ← ih, h.toNat_succ]
    omega
  | resumes _ _ he _ _ _ ih =>
    rw [List.countP_cons_of_neg (by simpa [Round.ends_iff] using he)]
    exact ih

/-- Each run has its body held, after as many others as have ended by then. -/
theorem Serves.held (h : l.Serves m t f body done u rounds) :
    ∀ pre c post, rounds = pre ++ c :: post → ∃ k, k.toNat = done.toNat + pre.countP Round.ends ∧
      l.Holds c.call.task k c.call.before ∧ ∃ status,
        l.runBody c.call.task c.call.before = .ok status c.call.after ∧ c.call.answer = .ok status := by
  induction h with
  | @last _ _ _ _ h hr =>
    intro pre c post heq
    cases pre with
    | nil =>
      cases heq
      exact ⟨_, rfl, h, _, hr, rfl⟩
    | cons d pre => simp at heq
  | renews h hr _ _ _ ih =>
    intro pre c post heq
    cases pre with
    | nil =>
      cases heq
      exact ⟨_, rfl, h, _, hr, rfl⟩
    | cons d pre =>
      cases heq
      obtain ⟨k, hk, hrest⟩ := ih pre c post rfl
      refine ⟨k, ?_, hrest⟩
      rw [hk, h.toNat_succ, List.countP_cons_of_pos rfl]
      omega
  | resumes h hr he _ _ _ ih =>
    intro pre c post heq
    cases pre with
    | nil =>
      cases heq
      exact ⟨_, rfl, h, _, hr, rfl⟩
    | cons d pre =>
      cases heq
      obtain ⟨k, hk, hrest⟩ := ih pre c post rfl
      refine ⟨k, ?_, hrest⟩
      rw [hk, List.countP_cons_of_neg (by simpa [Round.ends_iff] using he)]

theorem Serves.mem (h : l.Serves m t f body done u rounds) (hc : c ∈ rounds) :
    ∃ k, l.Holds c.call.task k c.call.before ∧ ∃ status,
      l.runBody c.call.task c.call.before = .ok status c.call.after := by
  obtain ⟨pre, post, heq⟩ := List.append_of_mem hc
  obtain ⟨k, _, hholds, status, hr, _⟩ := h.held pre c post heq
  exact ⟨k, hholds, status, hr⟩

/-- No body ends twice. -/
theorem Serves.distinct (h : l.Serves m t f body done u rounds) (hw : (l.final m t).tasks.NoWrap) :
    ((rounds.filter Round.ends).map fun c => c.call.task).Nodup := by
  induction h with
  | last => exact List.nodup_singleton _
  | renews h hr _ hb hs ih =>
    rw [List.filter_cons_of_pos rfl, List.map_cons, List.nodup_cons]
    refine ⟨?_, ih⟩
    intro hm
    obtain ⟨c, hc, heq⟩ := List.mem_map.1 hm
    obtain ⟨_, hholds, _⟩ := hs.mem (List.mem_filter.1 hc).1
    obtain ⟨_, _, hdead, _⟩ := h.renew hr hs.holds.more hb (hs.grows.noWrap hw)
    have hin := (hs.within hw).2 c (List.mem_filter.1 hc).1
    have hgone := (hdead.grows hin.entered.grows).get?
      ((hin.ran.trans hin.left).grows.noWrap hw)
    have halive := hholds.alive
    rw [heq, Arena.contains, hgone] at halive
    cases halive
  | resumes _ _ he _ _ _ ih =>
    rw [List.filter_cons_of_neg (by simpa [Round.ends_iff] using he)]
    exact ih

/-- How another run follows a run. A body that has not ended goes on in the next frame. One that has
is let go of and counted, and another one is bound, which is run in the same frame. -/
inductive Next (l : Repeater) (t : Nat → Turn) (c d : Round) : Prop where
  | resumes (he : c.ends = false) (hf : d.frame = c.frame + 1) (ht : d.call.task = c.call.task)
      (hb : d.call.before = (t d.frame).start l.id)
  | renews {task : Task} {t₁ t₂ : Turn} (he : c.ends = true) (hf : d.frame = c.frame)
      (hc : Turn.finishBody l.id c.call.task c.call.after = .ok task t₁)
      (hn : l.bindBody t₁.bullet t₁ = .ok d.call.task t₂)
      (hb : d.call.before = t₂.adopt l.id d.call.task)

theorem Serves.chain (h : l.Serves m t f body done u rounds) (hw : (l.final m t).tasks.NoWrap) :
    rounds.IsChain (l.Next t) := by
  induction h with
  | last => exact .singleton _
  | renews h hr hv hb hs ih =>
    have hwithin := (hs.renews h hr hv hb).within hw
    have hw' := (hwithin.2 _ List.mem_cons_self).left.grows.noWrap hw
    obtain ⟨_, _, _, rfl⟩ := hs.head
    exact .cons_cons (.renews rfl rfl (h.finishBody hr hw') hb rfl) ih
  | resumes _ _ he _ _ hs ih =>
    obtain ⟨_, _, _, rfl⟩ := hs.head
    refine .cons_cons (.resumes ?_ rfl rfl rfl) ih
    exact Bool.eq_false_iff.2 fun hends => he (by simpa [Round.ends_iff] using hends)

theorem Serves.frame_le (h : l.Serves m t f body done u rounds) : ∀ c ∈ rounds, f ≤ c.frame := by
  induction h with
  | last => simp
  | renews _ _ _ _ _ ih => simpa using ih
  | resumes _ _ _ _ _ _ ih =>
    intro c hc
    rcases List.mem_cons.1 hc with rfl | hc
    · exact Nat.le_refl _
    · exact Nat.le_of_succ_le (ih c hc)

/-- What is run for the bodies in a frame. -/
def during (l : Repeater) (rounds : List Round) (f : Nat) : List Call :=
  (rounds.filter fun c => c.frame == f).flatMap l.log

theorem during_of_lt (h : ∀ c ∈ rounds, f < c.frame) : l.during rounds f = [] := by
  rw [during, List.filter_eq_nil_iff.2, List.flatMap_nil]
  intro c hc
  simpa using (Nat.ne_of_lt (h c hc)).symm

theorem during_cons_self (c : Call) :
    l.during (⟨f, c⟩ :: rounds) f = logTask l.pattern l.fuel c.task c.before ++ l.during rounds f := by
  rw [during, List.filter_cons_of_pos (by simp), List.flatMap_cons]
  rfl

theorem during_cons_of_ne {c : Call} {g : Nat} (h : f ≠ g) :
    l.during (⟨f, c⟩ :: rounds) g = l.during rounds g := by
  rw [during, List.filter_cons_of_neg (by simpa using h)]
  rfl

theorem Holds.logRest_hold (h : l.Holds body done u) (hr : l.runBody body u = .ok status u')
    (he : status ≠ .ended) : l.logRest done u = logTask l.pattern l.fuel body u := by
  rw [logRest, h.left_succ]
  apply logBodies_of_stops h.get? rfl
  intro v hv
  rw [hr] at hv
  cases hv
  exact he rfl

theorem Holds.logRest_ended (h : l.Holds body done u) (hr : l.runBody body u = .ok .ended u') :
    l.logRest done u = logTask l.pattern l.fuel body u ++
      match dueBody l.pattern l.room l.id body (l.times.toNat - (done + 1).toNat) u' with
      | some v => l.logRest (done + 1) v
      | none => [] := by
  rw [logRest, h.left_succ]
  exact logBodies_of_ended h.get? rfl hr

theorem Holds.logRest_renew (h : l.Holds body done u) (hr : l.runBody body u = .ok .ended u')
    (hw : u'.tasks.NoWrap) (hl : done + 1 < l.times) (hv : u'.bullet.vanished = false)
    (hb : l.bindBody u'.bullet (l.counted body done u') = .ok fresh v) :
    l.logRest done u =
      logTask l.pattern l.fuel body u ++ l.logRest (done + 1) (v.adopt l.id fresh) := by
  have hmore := UInt32.lt_iff_toNat_lt.1 hl
  have hdue : dueBody l.pattern l.room l.id body (l.times.toNat - (done + 1).toNat) u' =
      some (v.adopt l.id fresh) := by
    rw [dueBody_of_due (h.shed hr hw).1 (not_or.2 ⟨by omega, by simp [hv]⟩), rebind_atWork, hb]
  rw [h.logRest_ended hr, hdue]

/-- The rest of a frame runs the bodies of the frame that are left, and nothing else. -/
theorem Serves.logRest (h : l.Serves m t f body done u rounds) (hw : (l.final m t).tasks.NoWrap) :
    l.logRest done u = l.during rounds f := by
  have hwithin := (h.within hw).2
  induction h with
  | last h hr hl hs =>
    have hw' := (hwithin _ List.mem_cons_self).left.grows.noWrap hw
    have hnone : dueBody l.pattern l.room l.id _ (l.times.toNat - l.times.toNat) _ = none :=
      dueBody_of_last (h.shed hr hw').1 (.inl (Nat.sub_self _))
    rw [h.logRest_ended hr, hl, hnone, during_cons_self]
    rfl
  | @renews f body _ done u u' _ _ h hr hv hb hs ih =>
    have hw' := (hwithin _ List.mem_cons_self).left.grows.noWrap hw
    rw [h.logRest_renew hr hw' hs.holds.more hv hb, during_cons_self]
    exact congrArg _ (ih (hs.within hw).2)
  | @resumes f _ _ _ _ _ rounds h hr he _ _ hs =>
    have hlater : l.during rounds f = [] := during_of_lt hs.frame_le
    rw [h.logRest_hold hr he, during_cons_self, hlater, List.append_nil]

/-- In each later frame the `repeat` knows how often it runs its body, and runs the bodies of the
frame and nothing else. -/
theorem Serves.later (h : l.Serves m t f body done u rounds) (hw : (l.final m t).tasks.NoWrap)
    {g : Nat} (hf : f < g) (hg : g ≤ m) :
    (∃ body done, l.Holds body done (t g)) ∧ logTask l.pattern (l.fuel + 1) l.id (t g) =
      ⟨l.id, t g, answer (l.run (t g)), state (l.run (t g))⟩ :: l.during rounds g := by
  induction h with
  | last => omega
  | renews _ _ _ _ _ ih =>
    obtain ⟨hholds, hlog⟩ := ih hf
    rw [during_cons_of_ne (Nat.ne_of_lt hf)]
    exact ⟨hholds, hlog⟩
  | @resumes f _ _ _ _ _ _ _ _ _ _ hn hs ih =>
    rw [during_cons_of_ne (Nat.ne_of_lt hf)]
    by_cases hnext : f + 1 = g
    · subst hnext
      refine ⟨⟨_, _, hn⟩, ?_⟩
      rw [hn.frame.2, hs.logRest hw]
    · exact ih (by omega)

end Serves
end Repeater
end Barrage.Turn

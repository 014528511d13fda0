import Barrage.Proofs.Timing

namespace Barrage

namespace Arena

/-- From `a` to `a'` others are at work: the trees below some roots are the same, and whatever else
there was is as it was bound or is gone for good. -/
structure Idles (a a' : Arena) (roots : List TaskId) : Prop
  extends a.SameBelow a' roots, a.Persists a'

variable {a a' : Arena} {cs : List TaskId} {X : Finset TaskId} {id : TaskId} {p : Pattern}

theorem Sound.idles (hs : a.Sound) (cs : List TaskId) : a.Idles a cs where
  toSameBelow := .refl a cs
  toPersists := hs.persists

theorem Idles.get? (h : a.Idles a' cs) (hX : a.Spans cs X) (hm : id ∈ X) :
    a'.get? id = a.get? id :=
  h.tasks id (hX.below_eq ▸ hm)

theorem Idles.spans (h : a.Idles a' cs) (hX : a.Spans cs X) (hw : a'.NoWrap) : a'.Spans cs X := by
  apply hX.transport h.grows
  · intro c hd _
    exact (hd.grows h.grows).get? hw
  · intro c hm task ht
    exact ⟨task, (h.get? hX hm).trans ht, rfl⟩

theorem Idles.fit (h : a.Idles a' cs) (hX : a.Spans cs X) (hf : a.Fit False p X) :
    a'.Fit False p X := by
  intro c hm task ht
  rw [h.get? hX hm] at ht
  refine ⟨nofun, ?_⟩
  intro hfin hone
  obtain ⟨d, hd, hl⟩ := (hf c hm task ht).held hfin hone
  refine ⟨d, hd, ?_⟩
  rw [Arena.contains, h.get? hX (hX.closed hm ht (by simp [hd]) hl)]
  exact hl

/-- A task that is live later on and is not live now was not live before. -/
theorem Persists.unborn {a'' : Arena} (h : a.Persists a') (h' : a'.Persists a'') (hw : a''.NoWrap)
    (hn : a'.get? id = none) (hl : a''.contains id = true) : a.get? id = none := by
  cases ht : a.get? id with
  | none => rfl
  | some task =>
    rcases h.shape id task ht with hd | ⟨_, ht', _⟩
    · rw [Arena.contains, (hd.grows h'.grows).get? hw] at hl
      cases hl
    · rw [hn] at ht'
      cases ht'

end Arena

namespace Turn

variable {p : Pattern} {fuel room left : Nat} {job : Job} {id body : TaskId} {task : Task}
  {t t' : Turn} {calls : List Call} {c : Call} {r : Except PatternError Status}

/-- What a run enters and leaves lies between its beginning and its end. -/
structure Call.Within (c : Call) (t t' : Turn) : Prop where
  entered : t.tasks.Persists c.before.tasks
  ran : c.before.tasks.Persists c.after.tasks
  left : c.after.tasks.Persists t'.tasks

theorem Call.Within.widen {t₁ t₂ : Turn} (h : c.Within t₁ t₂) (hb : t.tasks.Persists t₁.tasks)
    (ha : t₂.tasks.Persists t'.tasks) : c.Within t t' where
  entered := hb.trans h.entered
  ran := h.ran
  left := h.left.trans ha

theorem within_whole (hs : t.tasks.Sound) (h : t.tasks.Persists t'.tasks) :
    Call.Within ⟨id, t, r, t'⟩ t t' where
  entered := hs.persists
  ran := h
  left := h.sound.persists

/-- A `repeat` that has let go of a body takes in another one. -/
theorem persists_renewed {fresh : TaskId} {b : Bullet} (hs : t.tasks.Sound)
    (ht : (t.shed body).tasks.get? id = some task) (hk : task.kind.reach = room + 1)
    (hb : rebind p room id task b ((t.shed body).countBody id task) = .ok fresh t')
    (hw : (t'.adopt id fresh).tasks.NoWrap) :
    t.tasks.Persists (t'.adopt id fresh).tasks ∧
      (t'.adopt id fresh).tasks.get? id = some (task.countBody.adopt fresh) := by
  have hcount := persists_countBody hs ht
  have hreach : task.countBody.kind.reach = room + 1 :=
    (TaskKind.reach_of_shape (shape_countBody task)).trans hk
  obtain ⟨hagain, hget, _⟩ :=
    persists_again hcount.sound (get?_counted ht) hreach (Arena.grows_modify.noWrap hw) hb
  exact ⟨hcount.trans hagain, hget⟩

/-- Every task is run within the run. -/
theorem Runs.within (h : Runs p fuel job t calls r t') (hs : t.tasks.Sound) (hj : job.Sized t)
    (hw : t'.tasks.NoWrap) (hc : c ∈ calls) : c.Within t t' := by
  have hrun := h.persists hs hj hw
  induction h with
  | exhausted =>
    rw [List.mem_singleton.1 hc]
    exact within_whole hs hrun
  | stale =>
    rw [List.mem_singleton.1 hc]
    exact within_whole hs hrun
  | finished =>
    rw [List.mem_singleton.1 hc]
    exact within_whole hs hrun
  | leaf =>
    rw [List.mem_singleton.1 hc]
    exact within_whole hs hrun
  | @composite _ id _ _ _ _ _ _ _ _ hr ih =>
    rcases List.mem_cons.1 hc with rfl | hc
    · exact within_whole hs hrun
    · have hstart := persists_start id hs
      have hw' := noWrap_close (hr.evolves hstart.sound).sound hw
      have hinner := hr.persists hstart.sound trivial hw'
      exact (ih hstart.sound trivial hw' hc hinner).widen hstart (persists_close _ _ hinner.sound)
  | «repeat» ht _ hk hcount hr ih =>
    rcases List.mem_cons.1 hc with rfl | hc
    · exact within_whole hs hrun
    · have hstart := (persists_start _ hs).bind fun h => hcount.persists h (get?_start ht) hk
      have hevolves := hr.evolves hstart.sound
      have hw' := noWrap_close hevolves.sound hw
      have hsized := sized_bodies hstart (hevolves.grows.noWrap hw') ht hk
      have hinner := hr.persists hstart.sound (hsized _) hw'
      exact (ih hstart.sound (hsized _) hw' hc hinner).widen hstart
        (persists_close _ _ hinner.sound)
  | done => cases hc
  | skip _ _ ih => exact ih hs trivial hw hc hrun
  | halt _ _ _ _ ih => exact ih hs trivial hw hc hrun
  | cut _ _ _ _ ih => exact ih hs trivial hw hc hrun
  | next _ hr _ _ hs' ih ih' =>
    have hw₁ := (hs'.evolves (hr.evolves hs).sound).grows.noWrap hw
    have hfirst := hr.persists hs trivial hw₁
    have hrest := hs'.persists hfirst.sound trivial hw
    rcases List.mem_append.1 hc with hc | hc
    · exact (ih hs trivial hw₁ hc hfirst).widen hs.persists hrest
    · exact (ih' hfirst.sound trivial hw hc hrest).widen hfirst hrest.sound.persists
  | lost => cases hc
  | bare => cases hc
  | spent => cases hc
  | hold _ _ _ _ ih => exact ih hs trivial hw hc hrun
  | vacant _ _ hr _ ih =>
    have hw' := (hr.evolves hs).sound.evolves_release.grows.noWrap hw
    have hbody := hr.persists hs trivial hw'
    exact (ih hs trivial hw' hc hbody).widen hs.persists hbody.sound.persists_release
  | last _ _ hr ht' _ ih =>
    have hw' := noWrap_countBody (hr.evolves hs).sound hw
    have hbody := hr.persists hs trivial hw'
    exact (ih hs trivial hw' hc hbody).widen hs.persists (persists_countBody hbody.sound ht')
  | unbound _ _ hr ht' hb ih =>
    have hsound := (hr.evolves hs).sound
    have hw' := noWrap_countBody hsound (noWrap_rebind hsound hb hw)
    have hbody := hr.persists hs trivial hw'
    have hrest := (persists_countBody hbody.sound ht').bind fun h => persists_rebind_error h hb
    exact (ih hs trivial hw' hc hbody).widen hs.persists hrest
  | again ht _ hr ht' hb hs' ih ih' =>
    have hsound := (hr.evolves hs).sound
    have hbind := (evolves_countBody _ _ _ hsound).bind fun h => evolves_rebind h hb
    have hw₂ := (hs'.evolves (evolves_adopt _ _ hbind.sound).sound).grows.noWrap hw
    have hcount := noWrap_rebind hsound hb (Arena.grows_modify.noWrap hw₂)
    have hw₁ := noWrap_countBody hsound hcount
    have hbody := hr.persists hs trivial hw₁
    obtain ⟨hagain, hsized, _⟩ := persists_rebound hbody hj ht ht' hb hw₂
    have hrest := hs'.persists hagain.sound hsized hw
    rcases List.mem_append.1 hc with hc | hc
    · have hreach := (hbody.bind fun h => h.persists_release).reach ht ht'
        (Arena.grows_modify.noWrap hcount)
      obtain ⟨hrenew, _⟩ := persists_renewed hsound ht' (hreach.trans (hj _ ht)) hb hw₂
      exact (ih hs trivial hw₁ hc hbody).widen hs.persists (hrenew.trans hrest)
    · exact (ih' hagain.sound hsized hw hc hrest).widen hagain hrest.sound.persists

/-- A live `repeat` that is not over can go on with its bodies. -/
theorem Starts.repeating {g : Prop} {X : Finset TaskId} (h : Starts g p (.task id) X t)
    (ht : t.tasks.get? id = some task) (hf : task.isFinished = false)
    (hk : task.kind.isRepeat = true) (room left : Nat) :
    Starts g p (.bodies room id left) X t :=
  ⟨h.spans, h.tasks, h.pool, h.fit, task, ht, hf, hk⟩

/-- A `repeat` that has found out how often it runs its body. -/
structure Repeater where
  pattern : Pattern
  fuel : Nat
  id : TaskId
  node : NodeId
  owner : Option TaskId
  params : List Float32
  room : Nat
  times : UInt32

namespace Repeater

/-- The `repeat` while a body of it is at work and `done` others have ended. -/
def atWork (l : Repeater) (body : TaskId) (done : UInt32) : Task :=
  ⟨l.node, l.owner, [body], l.params, .repeat ⟨some l.times, done, l.room⟩, .running⟩

/-- One frame of the `repeat`. -/
def run (l : Repeater) : Run Status := runTask l.pattern (l.fuel + 1) l.id

def runBody (l : Repeater) : TaskId → Run Status := runTask l.pattern l.fuel

/-- What is left of a frame once `done` bodies have ended. -/
def runRest (l : Repeater) (done : UInt32) : Run Status :=
  runBodies l.pattern l.runBody l.room l.id (l.times.toNat - done.toNat)

/-- Binds another body for the `repeat`. -/
def bindBody (l : Repeater) (b : Bullet) : Run TaskId :=
  bindFor l.pattern b fun b => b.bindBody (b.bindNode l.room) l.node l.id l.params

/-- The `repeat` has bodies left, and this is the one it holds. -/
structure Holds (l : Repeater) (body : TaskId) (done : UInt32) (t : Turn) : Prop where
  get? : t.tasks.get? l.id = some (l.atWork body done)
  more : done < l.times
  starts : ∃ X, Starts False l.pattern (.task l.id) X t

variable {l : Repeater} {done : UInt32} {fresh : TaskId} {t₁ t₂ : Turn} {status : Status}

/-- One more body than before does not overflow the counter. -/
theorem Holds.toNat_succ (h : l.Holds body done t) : (done + 1).toNat = done.toNat + 1 :=
  toNat_next h.more

theorem Holds.left_succ (h : l.Holds body done t) :
    l.times.toNat - done.toNat = l.times.toNat - (done + 1).toNat + 1 := by
  have hlt := UInt32.lt_iff_toNat_lt.1 h.more
  have hsucc := h.toNat_succ
  omega

theorem Holds.sound (h : l.Holds body done t) : t.tasks.Sound :=
  h.starts.choose_spec.tasks

/-- The body that is held is there. -/
theorem Holds.alive (h : l.Holds body done t) : t.tasks.contains body = true := by
  obtain ⟨X, hX⟩ := h.starts
  obtain ⟨_, _, hc, _, _, hbody, _⟩ := (hX.repeating h.get? rfl rfl l.room 0).held h.get?
  cases hc
  exact hbody.ready

theorem Holds.ran (h : l.Holds body done t) (hr : l.runBody body t = .ok status t')
    (hw : t'.tasks.NoWrap) :
    ∃ calls Y Y' N shots, Starts False l.pattern (.task l.id) ({l.id} ∪ Y) t ∧ l.id ∉ Y ∧
      Outcome False l.pattern (.task body) Y t calls (.ok status) t' Y' N shots := by
  obtain ⟨X, hX⟩ := h.starts
  obtain ⟨_, Y, hc, rfl, hid, hbody, _⟩ := (hX.repeating h.get? rfl rfl l.room 0).held h.get?
  cases hc
  obtain ⟨Y', N, shots, ho⟩ := ((logged_task _ _ _ _).ran hr).outcome nofun hbody hw
  exact ⟨_, Y, Y', N, shots, hX, hid, ho⟩

theorem Holds.persists (h : l.Holds body done t) (hr : l.runBody body t = .ok status t')
    (hw : t'.tasks.NoWrap) : t.tasks.Persists t'.tasks :=
  ((logged_task _ _ _ _).ran hr).persists h.sound trivial hw

/-- A body that has not ended is held on to. -/
theorem Holds.keep (h : l.Holds body done t) (hr : l.runBody body t = .ok status t')
    (hw : t'.tasks.NoWrap) : l.Holds body done t' := by
  obtain ⟨_, Y, Y', _, _, hs, hid, ho⟩ := h.ran hr hw
  obtain ⟨hget, _, hl⟩ := ho.held h.get? hid rfl
  exact ⟨hget, h.more, _, hl.spans, hl.replaces.sound, hl.adds.sound,
    hl.fit ⟨status, rfl⟩ hs.fit, Arena.contains_of_get? hget⟩

/-- Whatever happens between two frames, the body is held on to. -/
theorem Holds.idle (h : l.Holds body done t) (hi : t.tasks.Idles t'.tasks [l.id])
    (hp : t'.pool.Sound) (hw : t'.tasks.NoWrap) : l.Holds body done t' := by
  obtain ⟨X, hX⟩ := h.starts
  have hm := hX.spans.mem_of_live (List.mem_singleton_self _) hX.ready
  have hget := (hi.get? hX.spans hm).trans h.get?
  exact ⟨hget, h.more, X, hi.spans hX.spans hw, hi.sound, hp, hi.fit hX.spans hX.fit,
    Arena.contains_of_get? hget⟩

theorem Holds.start (h : l.Holds body done t) : l.Holds body done (t.start l.id) := by
  obtain ⟨X, hX⟩ := h.starts
  have hl : Leaves False True l.pattern t (t.start l.id) [l.id] X X ∅ [] := hX.leaves_start
  exact ⟨get?_start h.get?, h.more, X,
    hl.starts hX.fit rfl (Arena.contains_modify.trans hX.ready)⟩

/-- Once a body has ended, the `repeat` lets go of it for good. -/
theorem Holds.shed (h : l.Holds body done t) (hr : l.runBody body t = .ok .ended t')
    (hw : t'.tasks.NoWrap) : (t'.shed body).tasks.get? l.id = some (l.atWork body done) ∧
      (t'.shed body).tasks.IsDead body := by
  obtain ⟨_, Y, Y', _, _, _, hid, ho⟩ := h.ran hr hw
  obtain ⟨hget, hid', _⟩ := ho.held h.get? hid rfl
  have hsound := ho.leaves.replaces.sound
  exact ⟨get?_shed hget ho.leaves.spans hid' hsound, (ho.leaves.spans.release_root hsound).2⟩

/-- The state after a body has ended, was let go of and was counted. -/
def counted (l : Repeater) (body : TaskId) (done : UInt32) (t : Turn) : Turn :=
  (t.shed body).countBody l.id (l.atWork body done)

theorem Holds.finishBody (h : l.Holds body done t) (hr : l.runBody body t = .ok .ended t')
    (hw : t'.tasks.NoWrap) :
    finishBody l.id body t' = .ok (l.atWork body done).countBody (l.counted body done t') :=
  finishBody_of_some (h.shed hr hw).1

/-- Another body takes the place of one that has ended. Before it was bound it was not there. -/
theorem Holds.renew (h : l.Holds body done t) (hr : l.runBody body t = .ok .ended t₁)
    (hl : done + 1 < l.times)
    (hb : l.bindBody t₁.bullet (l.counted body done t₁) = .ok fresh t₂)
    (hw : (t₂.adopt l.id fresh).tasks.NoWrap) :
    l.Holds fresh (done + 1) (t₂.adopt l.id fresh) ∧
      t₁.tasks.Persists (t₂.adopt l.id fresh).tasks ∧
      (t₂.adopt l.id fresh).tasks.IsDead body ∧
      ∀ a : Arena, a.Persists t₁.tasks → a.get? fresh = none := by
  change rebind l.pattern l.room l.id (l.atWork body done) t₁.bullet
    ((t₁.shed body).countBody l.id (l.atWork body done)) = .ok fresh t₂ at hb
  have hrun := (((logged_task _ _ _ _).ran hr).evolves h.sound).sound
  have hcount := evolves_countBody body l.id (l.atWork body done) hrun
  have hbind := evolves_rebind hcount.sound hb
  have hw₂ : t₂.tasks.NoWrap := Arena.grows_modify.noWrap hw
  have hw₁ := hcount.grows.noWrap (hbind.grows.noWrap hw₂)
  obtain ⟨hget, hdead⟩ := h.shed hr hw₁
  have hkept := persists_countBody hrun hget
  obtain ⟨hagain, hget', _⟩ := persists_again hcount.sound (get?_counted hget) rfl hw₂ hb
  obtain ⟨_, Y, Y', _, _, hs, hid, ho⟩ := h.ran hr hw₁
  obtain ⟨W, _, hnext⟩ := (hs.repeating h.get? rfl rfl l.room 1).again nofun ho rfl hid h.get? rfl
    rfl rfl nofun hget hb hw
  refine ⟨⟨hget', hl, W, hnext.spans, hnext.tasks, hnext.pool, hnext.fit,
    Arena.contains_of_get? hget'⟩, hkept.trans hagain, ?_, ?_⟩
  · exact ((hdead.grows Arena.grows_modify).grows hbind.grows).grows Arena.grows_modify
  · intro a ha
    obtain ⟨_, Z, hreplaces, hholds, _⟩ := rebind_ok (g := False) hcount.sound hb nofun nofun rfl
    have hfresh := List.mem_singleton_self fresh
    have hZ := hholds.spans.mem_of_live hfresh (hholds.contains hfresh)
    have hnone := (hreplaces.fresh fresh hZ).resolve_left (Finset.notMem_empty fresh)
    apply (ha.trans hkept).unborn hagain hw hnone
    exact Arena.contains_modify.trans (hholds.contains hfresh)

/-- When the last body has ended nothing is left below the `repeat`. -/
theorem Holds.last (h : l.Holds body done t) (hr : l.runBody body t = .ok .ended t₁)
    (hw : ((l.counted body done t₁).close l.id (.ok .ended)).tasks.NoWrap) :
    t₁.tasks.Persists ((l.counted body done t₁).close l.id (.ok .ended)).tasks ∧
      ((l.counted body done t₁).close l.id (.ok .ended)).tasks.IsDead body ∧
      ((l.counted body done t₁).close l.id (.ok .ended)).tasks.below [l.id] = {l.id} := by
  have hrun := (((logged_task _ _ _ _).ran hr).evolves h.sound).sound
  have hcount : t₁.tasks.Evolves (l.counted body done t₁).tasks :=
    evolves_countBody body l.id (l.atWork body done) hrun
  have hw₁ := hcount.grows.noWrap (noWrap_close hcount.sound hw)
  obtain ⟨hget, hdead⟩ := h.shed hr hw₁
  obtain ⟨_, Y, Y', _, _, hs, hid, ho⟩ := h.ran hr hw₁
  have hlast := (hs.repeating h.get? rfl rfl l.room 0).last ho rfl hid h.get? rfl hget hw
  have hkept : t₁.tasks.Persists (l.counted body done t₁).tasks := persists_countBody hrun hget
  have hgone : (l.counted body done t₁).tasks.IsDead body := hdead.grows Arena.grows_modify
  refine ⟨hkept.trans (persists_close l.id _ hcount.sound), hgone.grows (grows_close l.id _), ?_⟩
  exact hlast.leaves.spans.below_eq.trans (Finset.coe_singleton _)

end Repeater
end Turn
end Barrage

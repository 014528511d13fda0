import Barrage.Proofs.Update

namespace Barrage

namespace Turn

variable {g : Prop} {p : Pattern} {fuel room left : Nat} {job : Job} {t t' : Turn}
  {id body : TaskId} {task : Task} {calls : List Call} {r : Except PatternError Status} {c : Call}
  {X : Finset TaskId} {kept roots rest : List TaskId}

section Within

/-- A task is entered before the run is over. -/
theorem Runs.grows_call (h : Runs p fuel job t calls r t') (hs : t.tasks.Sound) (hc : c ∈ calls) :
    c.before.tasks.Grows t'.tasks := by
  induction h with
  | exhausted =>
    rw [List.mem_singleton.1 hc]
    exact .refl _
  | stale =>
    rw [List.mem_singleton.1 hc]
    exact .refl _
  | finished =>
    rw [List.mem_singleton.1 hc]
    exact .refl _
  | @leaf fuel _ _ _ _ _ ht hf ha =>
    have hself : Runs p (fuel + 1) _ _ _ _ _ := .leaf ht hf ha
    rw [List.mem_singleton.1 hc]
    exact (hself.evolves hs).grows
  | composite ht hf hk hr ih =>
    rcases List.mem_cons.1 hc with rfl | hc
    · exact ((Runs.composite ht hf hk hr).evolves hs).grows
    · exact (ih (evolves_start _ hs).sound hc).trans (grows_close _ _)
  | «repeat» ht hf hk hn hr ih =>
    rcases List.mem_cons.1 hc with rfl | hc
    · exact ((Runs.repeat ht hf hk hn hr).evolves hs).grows
    · have hcount := (evolves_start _ hs).bind hn.evolves
      exact (ih hcount.sound hc).trans (grows_close _ _)
  | done => cases hc
  | skip _ _ ih => exact ih hs hc
  | halt _ _ _ _ ih => exact ih hs hc
  | cut _ _ _ _ ih => exact ih hs hc
  | next _ hr _ _ hs' ih ih' =>
    have hrun := (hr.evolves hs).sound
    rcases List.mem_append.1 hc with hc | hc
    · exact (ih hs hc).trans (hs'.evolves hrun).grows
    · exact ih' hrun hc
  | lost => cases hc
  | bare => cases hc
  | spent => cases hc
  | hold _ _ _ _ ih => exact ih hs hc
  | vacant _ _ hr _ ih => exact (ih hs hc).trans (hr.evolves hs).sound.evolves_release.grows
  | last _ _ hr _ _ ih =>
    exact (ih hs hc).trans (evolves_countBody _ _ _ (hr.evolves hs).sound).grows
  | unbound _ _ hr _ hb ih =>
    have hbind := (evolves_countBody _ _ _ (hr.evolves hs).sound).bind fun h =>
      evolves_rebind h hb
    exact (ih hs hc).trans hbind.grows
  | again _ _ hr _ hb hs' ih ih' =>
    have hbind := (evolves_countBody _ _ _ (hr.evolves hs).sound).bind fun h =>
      evolves_rebind h hb
    rcases List.mem_append.1 hc with hc | hc
    · have hrest := (hs'.evolves hbind.sound.modify).grows
      exact ((ih hs hc).trans hbind.grows).trans (Arena.grows_modify.trans hrest)
    · exact ih' hbind.sound.modify hc

theorem RunsRoots.grows_call (h : RunsRoots p kept roots t calls t') (hs : t.tasks.Sound)
    (hc : c ∈ calls) : c.before.tasks.Grows t'.tasks := by
  induction h with
  | done => cases hc
  | fault hr =>
    exact (hr.grows_call hs hc).trans (evolves_releaseAll (hr.evolves hs).sound _).grows
  | cut hr => exact hr.grows_call hs hc
  | stays hr _ _ hrest ih =>
    have hrun := (hr.evolves hs).sound
    rcases List.mem_append.1 hc with hc | hc
    · exact (hr.grows_call hs hc).trans (hrest.evolves hrun).grows
    · exact ih hrun hc
  | last hr => exact (hr.grows_call hs hc).trans (hr.evolves hs).sound.evolves_release.grows
  | ends hr _ hrest ih =>
    have hrun := (hr.evolves hs).sound
    rcases List.mem_append.1 hc with hc | hc
    · exact (hr.grows_call hs hc).trans (hrun.evolves_release.bind hrest.evolves).grows
    · exact ih hrun.evolves_release.sound hc

/-- A task that is run is entered first. -/
theorem Runs.begins (h : Runs p fuel (.task id) t calls r t') : ∃ c ∈ calls, c.before = t := by
  cases h with
  | composite => exact ⟨_, List.mem_cons_self, rfl⟩
  | «repeat» => exact ⟨_, List.mem_cons_self, rfl⟩
  | _ => exact ⟨_, List.mem_singleton_self _, rfl⟩

theorem RunsRoots.begins {root : TaskId} (h : RunsRoots p kept (root :: rest) t calls t') :
    ∃ c ∈ calls, c.before = t := by
  cases h with
  | fault hr => exact hr.begins
  | cut hr => exact hr.begins
  | last hr => exact hr.begins
  | stays hr =>
    obtain ⟨c, hc, hb⟩ := hr.begins
    exact ⟨c, List.mem_append_left _ hc, hb⟩
  | ends hr =>
    obtain ⟨c, hc, hb⟩ := hr.begins
    exact ⟨c, List.mem_append_left _ hc, hb⟩

end Within

section Entered

/-- The body of a `repeat` is entered under the `repeat`. -/
theorem Starts.entered_body (h : Starts g p (.bodies room id left) X t)
    (ht : t.tasks.get? id = some task) (hc : task.children = body :: rest)
    (hb : ∀ Y, Starts g p (.task body) Y t →
      ∃ Y' N shots, Leaves g True p t c.before [body] Y Y' N shots) :
    ∃ X' N shots, Leaves g True p t c.before [id] X X' N shots := by
  obtain ⟨d, Y, hone, rfl, hid, hbody, _⟩ := h.held ht
  cases hone.symm.trans hc
  obtain ⟨Y', N, shots, hl⟩ := hb Y hbody
  rw [← hone] at hl
  exact ⟨_, N, shots, .under ht hid hl⟩

/-- When a task is entered, the run has so far gone well: it has left a forest that fits under its
roots, and forests that fit under the bullets it has fired. -/
theorem Runs.entered (h : Runs p fuel job t calls r t') (hp : g → p.Closed)
    (hs : Starts g p job X t) (hw : (job.conclude r t').tasks.NoWrap) (hc : c ∈ calls) :
    ∃ X' N shots, Leaves g True p t c.before job.roots X X' N shots := by
  have at_once (t : Turn) (X : Finset TaskId) (job : Job) (hs : Starts g p job X t) :
      ∃ X' N shots, Leaves g True p t t job.roots X X' N shots :=
    ⟨X, ∅, [], .refl hs.spans hs.tasks hs.pool⟩
  induction h generalizing X with
  | exhausted =>
    rw [List.mem_singleton.1 hc]
    exact at_once _ X _ hs
  | stale =>
    rw [List.mem_singleton.1 hc]
    exact at_once _ X _ hs
  | finished =>
    rw [List.mem_singleton.1 hc]
    exact at_once _ X _ hs
  | leaf =>
    rw [List.mem_singleton.1 hc]
    exact at_once _ X _ hs
  | composite ht hf hk hr ih =>
    rcases List.mem_cons.1 hc with rfl | hc
    · exact at_once _ X _ hs
    · obtain ⟨Y, rfl, hid, hkids⟩ := hs.children ht
      have hw' := noWrap_close (hr.evolves hkids.tasks).sound hw
      obtain ⟨Y', N, shots, hl⟩ := ih hkids hw' hc
      have hunder := Leaves.under (get?_start ht) hid hl
      exact ⟨_, N, shots, hunder.after hs.leaves_start ((hr.grows_call hkids.tasks hc).noWrap hw')⟩
  | «repeat» ht hf hk hn hr ih =>
    rcases List.mem_cons.1 hc with rfl | hc
    · exact at_once _ X _ hs
    · have hcount := (evolves_start _ hs.tasks).bind hn.evolves
      have hrun := hr.evolves hcount.sound
      have hw' := noWrap_close hrun.sound hw
      obtain ⟨hl, hbodies⟩ := hs.bodies ht hf hk hn _ _ (hrun.grows.noWrap hw')
      obtain ⟨X', N, shots, hl'⟩ := ih hbodies hw hc
      exact ⟨X', N, shots, hl'.after hl ((hr.grows_call hcount.sound hc).noWrap hw')⟩
  | done => cases hc
  | skip _ hr ih =>
    obtain ⟨Xc, Xs, rfl, hd, hroot, htail, _⟩ := hs.of_cons
    obtain ⟨Xs', N, shots, hl⟩ := ih (htail _) hw hc
    exact ⟨_, N, shots, hl.tail hroot hd ((hr.grows_call hs.tasks hc).noWrap hw)⟩
  | halt hf hr _ _ ih =>
    obtain ⟨Xc, Xs, rfl, hd, _, htail, hhead⟩ := hs.of_cons
    obtain ⟨Xc', N, shots, hl⟩ := ih (hhead hf) hw hc
    have hwc := (hr.grows_call hs.tasks hc).noWrap hw
    exact ⟨_, N, shots, hl.head (htail .ended).spans hd hwc⟩
  | cut hf hr _ _ ih =>
    obtain ⟨Xc, Xs, rfl, hd, _, htail, hhead⟩ := hs.of_cons
    obtain ⟨Xc', N, shots, hl⟩ := ih (hhead hf) hw hc
    have hwc := (hr.grows_call hs.tasks hc).noWrap hw
    exact ⟨_, N, shots, hl.head (htail .ended).spans hd hwc⟩
  | next hf hr _ _ hs' ih ih' =>
    obtain ⟨Xc, Xs, rfl, hd, _, htail, hhead⟩ := hs.of_cons
    have hrun := (hr.evolves hs.tasks).sound
    have hw₁ := (hs'.evolves hrun).grows.noWrap hw
    rcases List.mem_append.1 hc with hc | hc
    · obtain ⟨Xc', N, shots, hl⟩ := ih (hhead hf) hw₁ hc
      have hwc := (hr.grows_call hs.tasks hc).noWrap hw₁
      exact ⟨_, N, shots, hl.head (htail .ended).spans hd hwc⟩
    · obtain ⟨Xc', N, shots, ho⟩ := hr.outcome hp (hhead hf) hw₁
      obtain ⟨hd', hroot, hrest⟩ := ho.next (htail .ended) hd hw₁
      obtain ⟨Xs', N', more, hl⟩ := ih' hrest hw hc
      have hwc := (hs'.grows_call hrun hc).noWrap hw
      have hfirst := ho.leaves.head (htail .ended).spans hd hw₁
      exact ⟨_, _, _, (hfirst.weaken fun _ => ⟨_, rfl⟩).trans (hl.tail hroot hd' hwc) hwc⟩
  | lost => cases hc
  | bare => cases hc
  | spent => cases hc
  | hold ht hone hr _ ih =>
    have hw' := noWrap_close (hr.evolves hs.tasks).sound hw
    exact hs.entered_body ht hone fun Y hbody => ih hbody hw' hc
  | vacant ht hone hr _ ih =>
    have hw' := (hr.evolves hs.tasks).sound.evolves_release.grows.noWrap hw
    exact hs.entered_body ht hone fun Y hbody => ih hbody hw' hc
  | last ht hone hr _ _ ih =>
    have hrun := (hr.evolves hs.tasks).sound
    have hw' := noWrap_countBody hrun (noWrap_close (evolves_countBody _ _ _ hrun).sound hw)
    exact hs.entered_body ht hone fun Y hbody => ih hbody hw' hc
  | unbound ht hone hr _ hb ih =>
    have hbind := (evolves_countBody _ _ _ (hr.evolves hs.tasks).sound).bind fun h =>
      evolves_rebind h hb
    exact hs.entered_body ht hone fun Y hbody => ih hbody (hbind.grows.noWrap hw) hc
  | again ht hone hr ht' hb hs' ih ih' =>
    have hbind := (evolves_countBody _ _ _ (hr.evolves hs.tasks).sound).bind fun h =>
      evolves_rebind h hb
    have hrun := hs'.evolves hbind.sound.modify
    have hwrest := noWrap_close hrun.sound hw
    have hw₂ := hrun.grows.noWrap hwrest
    have hw₁ := hbind.grows.noWrap (Arena.grows_modify.noWrap hw₂)
    rcases List.mem_append.1 hc with hc | hc
    · exact hs.entered_body ht hone fun Y hbody => ih hbody hw₁ hc
    · obtain ⟨d, Y, hchild, hX, hid, hbody, hf, hk, hbound⟩ := hs.held ht
      cases hchild.symm.trans hone
      obtain ⟨Y', N, shots, ho⟩ := hr.outcome hp hbody hw₁
      obtain ⟨W, hl, hnext⟩ := hs.again hp ho hX hid ht hchild hf hk hbound ht' hb hw₂
      obtain ⟨X', N', more, hl'⟩ := ih' hnext hw hc
      exact ⟨X', _, _, hl.trans hl' ((hs'.grows_call hbind.sound.modify hc).noWrap hwrest)⟩

theorem Poised.entered {root : TaskId} (h : Poised g p (kept ++ root :: rest) X t)
    (hr : Runs p maxTaskChain (.task root) t calls r t') (hp : g → p.Closed)
    (hw : t'.tasks.NoWrap) (hc : c ∈ calls) :
    ∃ X' N shots, Ends g p t c.before X X' N shots := by
  obtain ⟨Xr, Xs, rfl, hd, hstart, hs⟩ := h.starts
  obtain ⟨Xr', N, shots, hl⟩ := hr.entered hp hstart hw hc
  have hperm : (root :: (kept ++ rest)).Perm (kept ++ root :: rest) := List.perm_middle.symm
  have hwc := (hr.grows_call h.tasks hc).noWrap hw
  exact ⟨_, N, shots, h.after (hl.frame hs hd hperm hwc) trivial⟩

/-- When a task is entered, the tasks of the bullet and those of the bullets it has fired are
forests of their own that fit. -/
theorem RunsRoots.entered (h : RunsRoots p kept roots t calls t') (hp : g → p.Closed)
    (hs : Poised g p (kept ++ roots) X t) (hw : t'.tasks.NoWrap) (hc : c ∈ calls) :
    ∃ X' N shots, Ends g p t c.before X X' N shots := by
  induction h generalizing X with
  | done => cases hc
  | fault hr =>
    have hw' := (evolves_releaseAll (hr.evolves hs.tasks).sound _).grows.noWrap hw
    exact hs.entered hr hp hw' hc
  | cut hr => exact hs.entered hr hp hw hc
  | stays hr _ _ hrest ih =>
    have hrun := (hr.evolves hs.tasks).sound
    have hw' := (hrest.evolves hrun).grows.noWrap hw
    rcases List.mem_append.1 hc with hc | hc
    · exact hs.entered hr hp hw' hc
    · obtain ⟨Xr, Xs, N, shots, hl, _⟩ := hs.ran hr hp hw'
      have hend := hs.after hl ⟨_, rfl⟩
      have hnext := hend.poised
      rw [hl.keeps.tasks, hs.roots, List.append_cons] at hnext
      obtain ⟨X', N', next, hend'⟩ := ih hnext hw hc
      exact ⟨X', _, _, hend.trans hend' ((hrest.grows_call hrun hc).noWrap hw)⟩
  | last hr =>
    have hw' := (hr.evolves hs.tasks).sound.evolves_release.grows.noWrap hw
    exact hs.entered hr hp hw' hc
  | ends hr _ hrest ih =>
    have hrun := (hr.evolves hs.tasks).sound
    have hw₁ := (hrest.evolves hrun.evolves_release.sound).grows.noWrap hw
    have hw' := hrun.evolves_release.grows.noWrap hw₁
    rcases List.mem_append.1 hc with hc | hc
    · exact hs.entered hr hp hw' hc
    · obtain ⟨Xr, Xs, N, shots, hl, hroot, hothers, hd, _⟩ := hs.ran hr hp hw'
      have hend := hs.after hl ⟨_, rfl⟩
      have hnext := hend.poised
      rw [hl.keeps.tasks, hs.roots] at hnext
      have hdrop := hend.trans (hnext.dismiss hroot hothers hd) hw₁
      obtain ⟨X', N', next, hend'⟩ := ih hdrop.poised hw hc
      have hwc := (hrest.grows_call hrun.evolves_release.sound hc).noWrap hw
      exact ⟨X', _, _, hdrop.trans hend' hwc⟩

end Entered

section Armed

/-- The slots are in order, and each live fire that is not over holds its bullet. -/
structure Armed (t : Turn) : Prop where
  tasks : t.tasks.Sound
  pool : t.pool.Sound
  held : ∀ id task fire, t.tasks.get? id = some task → task.isFinished = false →
    task.kind = .fire fire → ∃ held bullet, task.children = [held] ∧
      t.tasks.get? held = some bullet

theorem Armed.of_fit (ht : t.tasks.Sound) (hp : t.pool.Sound) (hf : t.tasks.Fit g p X)
    (ho : ∀ k, t.tasks.contains k = true → k ∈ X) : t.Armed where
  tasks := ht
  pool := hp
  held id task fire hget hfin hk := by
    have hfits := hf id (ho id (Arena.contains_of_get? hget)) task hget
    obtain ⟨held, hc, hl⟩ := hfits.held hfin (by rw [hk]; rfl)
    obtain ⟨bullet, hb⟩ := Arena.contains_iff.1 hl
    exact ⟨held, bullet, hc, hb⟩

/-- A task is armed no less once it has been started. -/
theorem Armed.start (h : t.Armed) (k : TaskId) : (t.start k).Armed where
  tasks := h.tasks.modify
  pool := h.pool
  held id task fire hget hfin hk := by
    have live {d : TaskId} {bullet : Task} (hb : t.tasks.get? d = some bullet) :
        ∃ bullet, (t.start k).tasks.get? d = some bullet := by
      apply Arena.contains_iff.1
      rw [Turn.start, Arena.contains_modify]
      exact Arena.contains_of_get? hb
    rw [Turn.start, Arena.get?_modify] at hget
    split at hget
    · rename_i he
      obtain ⟨old, hold, rfl⟩ := Option.map_eq_some_iff.1 hget
      obtain ⟨held, bullet, hc, hb⟩ := h.held k old fire hold (isFinished_advance hfin) hk
      obtain ⟨bullet', hb'⟩ := live hb
      exact ⟨held, bullet', hc, hb'⟩
    · obtain ⟨held, bullet, hc, hb⟩ := h.held id task fire hget hfin hk
      obtain ⟨bullet', hb'⟩ := live hb
      exact ⟨held, bullet', hc, hb'⟩

end Armed

end Turn

namespace Arena

variable {g : Prop} {Q : Pattern → Prop} {a : Arena} {bs : List Bullet} {X : Finset TaskId}

/-- That no task has lost the child it needs does not depend on its pattern. -/
theorem Owned.fit (h : a.Owned g Q bs X) (p : Pattern) : a.Fit False p X := by
  induction h with
  | nil => exact .empty
  | cons hb _ _ ih =>
    refine Fit.union ?_ ih
    intro id hm task ht
    exact ⟨nofun, (hb.fit id hm task ht).held⟩

end Arena

namespace Simulation

variable {g : Prop} {Q : Pattern → Prop} {s s' : Simulation} {b : Bullet} {t : Turn}
  {calls : List Turn.Call} {c : Turn.Call} {scale : Float32} {ids : List BulletId}

/-- In the turn of a bullet, the tasks of the others stay as they are. -/
theorem Orderly.armed_of_ends {p : Pattern} {X X' N : Finset TaskId} {shots : List Bullet}
    (h : s.Orderly g Q) (hb : s.get? b.id = some b) (hX : s.tasks.Spans b.tasks X)
    (he : Turn.Ends False p (s.turn b) t X X' N shots) : t.Armed := by
  obtain ⟨Z, hZ⟩ := h.tended
  cases hZ.owned.perm (h.pool.bullets_take hb) with
  | @cons _ _ Y W hd hs hdis =>
    obtain rfl := hd.spans.unique hX
    have hfit : t.tasks.Fit False p W := (hs.fit p).apart hs.spans he.replaces hdis
    have hall := (he.poised.fit.union he.shots).union hfit
    apply Turn.Armed.of_fit he.poised.tasks he.poised.pool hall
    intro k hk
    rcases he.replaces.only k hk with hm | ⟨hlive, hn⟩
    · exact Finset.mem_union_left _ hm
    · have hm := hZ.only k hlive
      exact Finset.mem_union_right _ ((Finset.mem_union.1 hm).resolve_left hn)

theorem Orderly.armed_plays (h : s.Orderly g Q) (hb : s.get? b.id = some b)
    (hp : (s.turn b).Plays calls t) (hw : t.tasks.NoWrap) (hc : c ∈ calls) : c.before.Armed := by
  obtain ⟨X, hd, hpoised⟩ := h.poised hb
  cases hp with
  | idle => cases hc
  | @runs p _ _ hsome hr =>
    have hpoised' : Turn.Poised False p ([] ++ b.tasks) X (s.turn b) := by
      refine ⟨hpoised.roots, hpoised.spans, hpoised.live, hpoised.tasks, hpoised.pool, ?_⟩
      intro id hm task ht
      exact ⟨nofun, (hpoised.fit id hm task ht).held⟩
    obtain ⟨X', N, shots, he⟩ := hr.entered nofun hpoised' hw hc
    exact h.armed_of_ends hb hd.spans he

/-- The frames of some bullets begin with the first task of the first of them. -/
theorem Ticks.begins {id : BulletId} {p : Pattern} {root : TaskId} {rest : List TaskId}
    (h : Ticks scale s (id :: ids) calls s') (hb : s.get? id = some b) (hv : b.vanished = false)
    (hp : b.pattern = some p) (ht : b.tasks = root :: rest) :
    ∃ c ∈ calls, c.before = s.turn b := by
  cases h with
  | drifts hb' hv' =>
    cases hb.symm.trans hb'
    exact absurd hv (by rw [hv']; decide)
  | plays hb' _ hplays =>
    cases hb.symm.trans hb'
    cases hplays with
    | idle hn => exact absurd (hp.symm.trans hn) nofun
    | runs _ hr =>
      rw [show (s.turn b).bullet.tasks = root :: rest from ht] at hr
      obtain ⟨c, hc, hbefore⟩ := hr.begins
      exact ⟨c, List.mem_append_left _ hc, hbefore⟩

/-- Whenever a task is entered in the frames of some bullets, every fire that is not over holds its
bullet. -/
theorem Ticks.armed (h : Ticks scale s ids calls s') (ho : s.Orderly g Q)
    (hQ : g → ∀ p, Q p → p.Closed) (hw : s'.tasks.NoWrap) (hc : c ∈ calls) : c.before.Armed := by
  induction h with
  | nil => cases hc
  | drifts hb _ hs ih =>
    have hw' := (hs.evolves ho.arena).grows.noWrap hw
    exact ih (ho.drifts hb hw').orderly hw hc
  | plays hb hv hp hs ih =>
    have hw' := (hs.evolves (hp.evolves ho.arena).sound).grows.noWrap hw
    rcases List.mem_append.1 hc with hc | hc
    · exact ho.armed_plays hb hp hw' hc
    · obtain ⟨shots, ht⟩ := ho.plays hQ hb hv hp hw'
      exact ih ht.orderly hw hc

end Simulation
end Barrage

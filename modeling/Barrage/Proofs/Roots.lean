import Barrage.Proofs.Execution

namespace Barrage.Turn

/-- The state after a fault: the roots of the bullet are let go, and it is told. -/
def abort (p : Pattern) (roots : List TaskId) (e : PatternError) (t : Turn) : Turn :=
  { t with
    tasks := t.tasks.releaseAll roots
    bullet := { t.bullet with tasks := [] }
    notices := t.notices.push (.bulletStopped p.name t.bullet.id e) }

/-- The state after a root has ended: it is let go. -/
def dismiss (root : TaskId) (left : List TaskId) (t : Turn) : Turn :=
  { t with
    tasks := (t.tasks.release root).2
    bullet := { t.bullet with tasks := left } }

/-- A run of the roots of a bullet that have not run yet, with every task that it ran. -/
inductive RunsRoots (p : Pattern) :
    List TaskId → List TaskId → Turn → List Call → Turn → Prop where
  | done {kept : List TaskId} {t : Turn} : RunsRoots p kept [] t [] t
  | fault {kept rest : List TaskId} {root : TaskId} {t t' : Turn} {calls : List Call}
      {e : PatternError} (hr : Runs p maxTaskChain (.task root) t calls (.error e) t') :
      RunsRoots p kept (root :: rest) t calls (t'.abort p (kept ++ root :: rest) e)
  | cut {kept rest : List TaskId} {root : TaskId} {t t' : Turn} {calls : List Call}
      {status : Status} (hr : Runs p maxTaskChain (.task root) t calls (.ok status) t')
      (he : status ≠ .ended) (hv : t'.bullet.vanished = true) :
      RunsRoots p kept (root :: rest) t calls t'
  | stays {kept rest : List TaskId} {root : TaskId} {t t₁ t' : Turn} {calls more : List Call}
      {status : Status} (hr : Runs p maxTaskChain (.task root) t calls (.ok status) t₁)
      (he : status ≠ .ended) (hv : t₁.bullet.vanished = false)
      (hs : RunsRoots p (kept ++ [root]) rest t₁ more t') :
      RunsRoots p kept (root :: rest) t (calls ++ more) t'
  | last {kept rest : List TaskId} {root : TaskId} {t t' : Turn} {calls : List Call}
      (hr : Runs p maxTaskChain (.task root) t calls (.ok .ended) t')
      (hv : t'.bullet.vanished = true) :
      RunsRoots p kept (root :: rest) t calls (t'.dismiss root (kept ++ rest))
  | ends {kept rest : List TaskId} {root : TaskId} {t t₁ t' : Turn} {calls more : List Call}
      (hr : Runs p maxTaskChain (.task root) t calls (.ok .ended) t₁)
      (hv : t₁.bullet.vanished = false)
      (hs : RunsRoots p kept rest (t₁.dismiss root (kept ++ rest)) more t') :
      RunsRoots p kept (root :: rest) t (calls ++ more) t'

/-- A turn of a bullet, with every task that it ran. -/
inductive Plays (t : Turn) : List Call → Turn → Prop where
  | idle (hp : t.bullet.pattern = none) : Plays t [] t
  | runs {p : Pattern} {calls : List Call} {t' : Turn} (hp : t.bullet.pattern = some p)
      (hr : RunsRoots p [] t.bullet.tasks t calls t') : Plays t calls t'

variable {g : Prop} {p : Pattern} {t t' t'' : Turn} {calls more : List Call}
  {kept roots rest : List TaskId} {root : TaskId} {X X' X'' N N' : Finset TaskId}
  {shots next : List Bullet}

/-- The tasks that were run for a bullet were its own, and they fired these bullets. -/
structure Logs (g : Prop) (p : Pattern) (b : Bullet) (calls : List Call) (shots : List Bullet) :
    Prop where
  fired : shots.map Bullet.id = calls.flatMap Call.fired
  safe : ∀ c ∈ calls, c.Safe g p
  within : ∀ c ∈ calls, b.Alike c.before.bullet

theorem Logs.nil (b : Bullet) : Logs g p b [] [] :=
  ⟨rfl, fun _ h => absurd h List.not_mem_nil, fun _ h => absurd h List.not_mem_nil⟩

theorem Logs.append {b b' : Bullet} (h₁ : Logs g p b calls shots) (h₂ : Logs g p b' more next)
    (hb : b.Alike b') : Logs g p b (calls ++ more) (shots ++ next) where
  fired := by rw [List.map_append, List.flatMap_append, h₁.fired, h₂.fired]
  safe c hc := (List.mem_append.1 hc).elim (h₁.safe c) (h₂.safe c)
  within c hc := (List.mem_append.1 hc).elim (h₁.within c) fun hc => hb.trans (h₂.within c hc)

/-- What the tasks of a bullet need before its turn, of which the roots in a list are to be run. -/
structure Poised (g : Prop) (p : Pattern) (cs : List TaskId) (X : Finset TaskId) (t : Turn) :
    Prop where
  roots : t.bullet.tasks = cs
  spans : t.tasks.Spans cs X
  live : ∀ c ∈ cs, t.tasks.contains c = true
  tasks : t.tasks.Sound
  pool : t.pool.Sound
  fit : t.tasks.Fit g p X

/-- What the turn of a bullet does to its tasks and the bullets it fires. -/
structure Ends (g : Prop) (p : Pattern) (t t' : Turn) (X X' N : Finset TaskId)
    (shots : List Bullet) : Prop extends Fires t t' X X' N shots where
  poised : Poised g p t'.bullet.tasks X' t'
  shots : t'.tasks.Fit g p N
  alike : t.bullet.Alike t'.bullet
  notices : Notice.Added (fun n => n.IsClamp ∨
    ∃ name e, n = .bulletStopped name t.bullet.id e ∧ (g → p.Raises e)) t.notices t'.notices

theorem Ends.refl (h : Poised g p t.bullet.tasks X t) : Ends g p t t X X ∅ [] where
  toFires := .idle (.refl h.tasks X) (.refl h.pool)
  poised := h
  shots := .empty
  alike := .refl _
  notices := .refl _

theorem Ends.trans (h₁ : Ends g p t t' X X' N shots) (h₂ : Ends g p t' t'' X' X'' N' next)
    (hw : t''.tasks.NoWrap) : Ends g p t t'' X X'' (N ∪ N') (shots ++ next) where
  toFires := h₁.toFires.trans h₂.toFires h₁.alike hw
  poised := h₂.poised
  shots := (h₁.shots.apart h₁.fired h₂.replaces h₁.apart).union h₂.shots
  alike := h₁.alike.trans h₂.alike
  notices := h₁.notices.trans (h₁.alike.id ▸ h₂.notices)

theorem Poised.starts (h : Poised g p (kept ++ root :: rest) X t) :
    ∃ Xr Xs, X = Xr ∪ Xs ∧ Disjoint Xr Xs ∧ Starts g p (.task root) Xr t ∧
      t.tasks.Spans (kept ++ rest) Xs := by
  obtain ⟨Xr, Xs, hr, hs, hd, rfl⟩ := (h.spans.perm List.perm_middle).of_cons
  refine ⟨Xr, Xs, rfl, hd, ⟨hr, h.tasks, h.pool, h.fit.mono Finset.subset_union_left, ?_⟩, hs⟩
  exact h.live root (by simp)

theorem Poised.ran {r : Except PatternError Status} (h : Poised g p (kept ++ root :: rest) X t)
    (hr : Runs p maxTaskChain (.task root) t calls r t') (hp : g → p.Closed)
    (hw : t'.tasks.NoWrap) :
    ∃ Xr Xs N shots, Leaves g (Succeeds r) p t t' (kept ++ root :: rest) X (Xr ∪ Xs) N shots ∧
      t'.tasks.Spans [root] Xr ∧ t'.tasks.Spans (kept ++ rest) Xs ∧ Disjoint Xr Xs ∧
      Logs g p t.bullet calls shots ∧ ∀ e, r = .error e → g → p.Raises e := by
  obtain ⟨Xr, Xs, rfl, hd, hstart, hs⟩ := h.starts
  obtain ⟨Xr', N, shots, ho⟩ := hr.outcome hp hstart hw
  have hperm : (root :: (kept ++ rest)).Perm (kept ++ root :: rest) := List.perm_middle.symm
  have hlive : ∀ k ∈ Xs, t.tasks.contains k = true := fun k hk => hs.contains hk
  have hd' := (Finset.disjoint_union_left.1 (ho.leaves.replaces.disjoint hlive hd)).1
  exact ⟨Xr', Xs, N, shots, ho.leaves.frame hs hd hperm hw, ho.leaves.spans,
    hs.apart ho.leaves.replaces hd hw, hd',
    ⟨ho.fired, ho.safe, fun c hc => (ho.within c hc).alike⟩, ho.raises⟩

theorem Poised.after {ok : Prop} {cs : List TaskId} (h : Poised g p cs X t)
    (hl : Leaves g ok p t t' cs X X' N shots) (ho : ok) : Ends g p t t' X X' N shots := by
  have hroots : t'.bullet.tasks = cs := hl.keeps.tasks.trans h.roots
  refine ⟨hl.toFires, ⟨rfl, hroots ▸ hl.spans, ?_, hl.replaces.sound, hl.adds.sound,
    hl.fit ho h.fit⟩, hl.shots h.fit, hl.keeps.alike, hl.keeps.notices.imp fun _ => .inl⟩
  intro c hc
  rw [hroots] at hc
  exact hl.alive c hc (h.live c hc)

theorem Poised.dismiss {Xr Xs : Finset TaskId} (h : Poised g p (kept ++ root :: rest) (Xr ∪ Xs) t)
    (hr : t.tasks.Spans [root] Xr) (hs : t.tasks.Spans (kept ++ rest) Xs) (hd : Disjoint Xr Xs) :
    Ends g p t (t.dismiss root (kept ++ rest)) (Xr ∪ Xs) Xs ∅ [] := by
  have hrel := hr.release h.tasks
  have hframe := hrel.frame (fun k hk => hs.contains hk) hd
  rw [Finset.empty_union] at hframe
  refine ⟨.idle hframe (.refl h.pool), ⟨rfl, hs.outlive hrel hd, ?_, hrel.sound, h.pool,
    (h.fit.mono Finset.subset_union_right).apart hs hrel hd⟩, .empty, ⟨rfl, rfl, rfl, rfl⟩,
    .refl _⟩
  intro c hc
  have hl := h.live c (List.mem_append.1 hc |>.elim (List.mem_append_left _) fun hc =>
    List.mem_append_right _ (List.mem_cons_of_mem _ hc))
  exact hrel.keeps hl (Finset.disjoint_right.1 hd (hs.mem_of_live hc hl))

theorem Poised.abort {ok : Prop} {cs : List TaskId} {e : PatternError} (h : Poised g p cs X t)
    (hl : Leaves g ok p t t' cs X X' N shots) (he : g → p.Raises e) :
    Ends g p t (t'.abort p cs e) X ∅ N shots := by
  have hrel := hl.spans.releaseAll hl.replaces.sound
  have hframe := hl.replaces.trans (hrel.frame (fun k hk => hl.fired.contains hk) hl.apart)
  refine ⟨⟨hl.fired.outlive hrel hl.apart, Finset.disjoint_empty_left _, hframe, ?_, hl.adds,
    hl.launched⟩, ⟨rfl, .nil, nofun, hrel.sound, hl.adds.sound, .empty⟩,
    (hl.shots h.fit).apart hl.fired hrel hl.apart, ?_, ?_⟩
  · intro b hb c hc
    have hlive := hl.rooted b hb c hc
    have hcN := hl.fired.mem_of_live (List.mem_flatMap.2 ⟨b, hb, hc⟩) hlive
    exact hrel.keeps hlive (Finset.disjoint_right.1 hl.apart hcN)
  · exact ⟨hl.keeps.alike.id, hl.keeps.alike.pos, hl.keeps.alike.age, hl.keeps.alike.pattern⟩
  · apply (hl.keeps.notices.imp fun _ => .inl).trans
    apply Notice.Added.push
    exact .inr ⟨_, e, by rw [hl.keeps.alike.id], he⟩

theorem evolves_releaseAll {a : Arena} (hs : a.Sound) (ids : List TaskId) :
    a.Evolves (a.releaseAll ids) := by
  induction ids generalizing a with
  | nil => exact hs.evolves
  | cons id ids ih => exact hs.evolves_release.bind ih

theorem RunsRoots.evolves (h : RunsRoots p kept roots t calls t') (hs : t.tasks.Sound) :
    t.tasks.Evolves t'.tasks := by
  induction h with
  | done => exact hs.evolves
  | fault hr => exact (hr.evolves hs).bind fun h => evolves_releaseAll h _
  | cut hr => exact hr.evolves hs
  | stays hr _ _ _ ih => exact (hr.evolves hs).bind ih
  | last hr => exact (hr.evolves hs).bind fun h => h.evolves_release
  | ends hr _ _ ih => exact (hr.evolves hs).bind fun h => h.evolves_release.bind ih

/-- The turn of a bullet keeps its tasks and those of the bullets it fires in order. -/
theorem RunsRoots.outcome (h : RunsRoots p kept roots t calls t') (hp : g → p.Closed)
    (hs : Poised g p (kept ++ roots) X t) (hw : t'.tasks.NoWrap) :
    ∃ X' N shots, Ends g p t t' X X' N shots ∧ Logs g p t.bullet calls shots := by
  induction h generalizing X with
  | done =>
    have hroots := hs.roots
    rw [← hroots] at hs
    exact ⟨X, ∅, [], .refl hs, .nil _⟩
  | fault hr =>
    have hrun := hr.evolves hs.tasks
    have hw' := (evolves_releaseAll hrun.sound _).grows.noWrap hw
    obtain ⟨Xr, Xs, N, shots, hl, _, _, _, hlog, hraise⟩ := hs.ran hr hp hw'
    exact ⟨∅, N, shots, hs.abort hl (hraise _ rfl), hlog⟩
  | cut hr =>
    obtain ⟨Xr, Xs, N, shots, hl, _, _, _, hlog, _⟩ := hs.ran hr hp hw
    exact ⟨_, N, shots, hs.after hl ⟨_, rfl⟩, hlog⟩
  | stays hr _ _ hrest ih =>
    have hw' := (hrest.evolves (hr.evolves hs.tasks).sound).grows.noWrap hw
    obtain ⟨Xr, Xs, N, shots, hl, _, _, _, hlog, _⟩ := hs.ran hr hp hw'
    have hend := hs.after hl ⟨_, rfl⟩
    have hnext := hend.poised
    rw [hl.keeps.tasks, hs.roots, List.append_cons] at hnext
    obtain ⟨X', N', next, hend', hlog'⟩ := ih hnext hw
    exact ⟨X', _, _, hend.trans hend' hw, hlog.append hlog' hend.alike⟩
  | last hr =>
    have hrun := hr.evolves hs.tasks
    have hw' := hrun.sound.evolves_release.grows.noWrap hw
    obtain ⟨Xr, Xs, N, shots, hl, hroot, hothers, hd, hlog, _⟩ := hs.ran hr hp hw'
    have hend := hs.after hl ⟨_, rfl⟩
    have hnext := hend.poised
    rw [hl.keeps.tasks, hs.roots] at hnext
    have hdrop := hend.trans (hnext.dismiss hroot hothers hd) hw
    rw [Finset.union_empty, List.append_nil] at hdrop
    exact ⟨Xs, N, shots, hdrop, hlog⟩
  | ends hr _ hrest ih =>
    have hrun := hr.evolves hs.tasks
    have hw₁ := (hrest.evolves hrun.sound.evolves_release.sound).grows.noWrap hw
    have hw' := hrun.sound.evolves_release.grows.noWrap hw₁
    obtain ⟨Xr, Xs, N, shots, hl, hroot, hothers, hd, hlog, _⟩ := hs.ran hr hp hw'
    have hend := hs.after hl ⟨_, rfl⟩
    have hnext := hend.poised
    rw [hl.keeps.tasks, hs.roots] at hnext
    have hdrop := hend.trans (hnext.dismiss hroot hothers hd) hw₁
    rw [Finset.union_empty, List.append_nil] at hdrop
    obtain ⟨X', N', next, hend', hlog'⟩ := ih hdrop.poised hw
    exact ⟨X', _, _, hdrop.trans hend' hw, hlog.append hlog' hdrop.alike⟩

theorem runRoots_of_error {e : PatternError} (hr : runTask p maxTaskChain root t = .error e t') :
    runRoots p kept (root :: rest) t = t'.abort p (kept ++ root :: rest) e := by
  rw [runRoots, hr]
  rfl

theorem runRoots_of_ended (hr : runTask p maxTaskChain root t = .ok .ended t') :
    runRoots p kept (root :: rest) t =
      if t'.bullet.vanished then t'.dismiss root (kept ++ rest)
      else runRoots p kept rest (t'.dismiss root (kept ++ rest)) := by
  rw [runRoots, hr]
  rfl

theorem runRoots_of_stays {status : Status} (hr : runTask p maxTaskChain root t = .ok status t')
    (he : status ≠ .ended) :
    runRoots p kept (root :: rest) t =
      if t'.bullet.vanished then t' else runRoots p (kept ++ [root]) rest t' := by
  rw [runRoots, hr]
  cases status with
  | ended => exact absurd rfl he
  | ongoing => rfl
  | paused => rfl

/-- Every task that is run for the roots that have not run yet. -/
def logRoots (p : Pattern) (kept : List TaskId) : List TaskId → Turn → List Call
  | [], _ => []
  | root :: rest, t =>
    logTask p maxTaskChain root t ++ match runTask p maxTaskChain root t with
      | .error _ _ => []
      | .ok .ended t =>
        if t.bullet.vanished then [] else logRoots p kept rest (t.dismiss root (kept ++ rest))
      | .ok _ t => if t.bullet.vanished then [] else logRoots p (kept ++ [root]) rest t

/-- The log of a turn. -/
def logTasks (t : Turn) : List Call :=
  match t.bullet.pattern with
  | some p => logRoots p [] t.bullet.tasks t
  | none => []

theorem logRoots_of_error {e : PatternError} (hr : runTask p maxTaskChain root t = .error e t') :
    logRoots p kept (root :: rest) t = logTask p maxTaskChain root t := by
  rw [logRoots, hr]
  exact List.append_nil _

theorem logRoots_of_ended (hr : runTask p maxTaskChain root t = .ok .ended t') :
    logRoots p kept (root :: rest) t = logTask p maxTaskChain root t ++
      if t'.bullet.vanished then []
      else logRoots p kept rest (t'.dismiss root (kept ++ rest)) := by
  rw [logRoots, hr]

theorem logRoots_of_stays {status : Status} (hr : runTask p maxTaskChain root t = .ok status t')
    (he : status ≠ .ended) :
    logRoots p kept (root :: rest) t = logTask p maxTaskChain root t ++
      if t'.bullet.vanished then [] else logRoots p (kept ++ [root]) rest t' := by
  rw [logRoots, hr]
  cases status with
  | ended => exact absurd rfl he
  | ongoing => rfl
  | paused => rfl

theorem logged_roots (p : Pattern) (kept roots : List TaskId) (t : Turn) :
    RunsRoots p kept roots t (logRoots p kept roots t) (runRoots p kept roots t) := by
  induction roots generalizing kept t with
  | nil => exact .done
  | cons root rest ih =>
    have h := logged_task p maxTaskChain root t
    cases hr : runTask p maxTaskChain root t with
    | error e t' =>
      rw [hr] at h
      rw [runRoots_of_error hr, logRoots_of_error hr]
      exact .fault h
    | ok status t' =>
      rw [hr] at h
      by_cases he : status = .ended
      · subst he
        rw [runRoots_of_ended hr, logRoots_of_ended hr]
        cases hv : t'.bullet.vanished with
        | true =>
          simp only [if_true, List.append_nil]
          exact .last h hv
        | false => exact .ends h hv (ih kept (t'.dismiss root (kept ++ rest)))
      · rw [runRoots_of_stays hr he, logRoots_of_stays hr he]
        cases hv : t'.bullet.vanished with
        | true =>
          simp only [if_true, List.append_nil]
          exact .cut h he hv
        | false => exact .stays h he hv (ih (kept ++ [root]) t')

theorem runsRoots_runRoots (p : Pattern) (kept roots : List TaskId) (t : Turn) :
    ∃ calls, RunsRoots p kept roots t calls (runRoots p kept roots t) :=
  ⟨_, logged_roots p kept roots t⟩

theorem evolves_runRoots (p : Pattern) (kept roots : List TaskId) (hs : t.tasks.Sound) :
    t.tasks.Evolves (runRoots p kept roots t).tasks := by
  obtain ⟨_, h⟩ := runsRoots_runRoots p kept roots t
  exact h.evolves hs

theorem logged_tasks (t : Turn) : t.Plays t.logTasks t.runTasks := by
  unfold runTasks logTasks
  cases hp : t.bullet.pattern with
  | none => exact .idle hp
  | some p => exact .runs hp (logged_roots p [] t.bullet.tasks t)

theorem plays_runTasks (t : Turn) : ∃ calls, t.Plays calls t.runTasks := ⟨_, t.logged_tasks⟩

theorem Plays.evolves (h : t.Plays calls t') (hs : t.tasks.Sound) : t.tasks.Evolves t'.tasks := by
  cases h with
  | idle => exact hs.evolves
  | runs _ hr => exact hr.evolves hs

end Barrage.Turn

namespace Barrage

/-- The rank, the target and the number of recycled bullets are the same. -/
structure Context.Alike (c c' : Context) : Prop where
  rank : c'.rank = c.rank
  target : c'.target = c.target
  recycled : c'.stats.recycled = c.stats.recycled

theorem Context.Alike.refl (c : Context) : c.Alike c := ⟨rfl, rfl, rfl⟩

theorem Context.Alike.trans {c c' c'' : Context} (h₁ : c.Alike c') (h₂ : c'.Alike c'') :
    c.Alike c'' where
  rank := h₂.rank.trans h₁.rank
  target := h₂.target.trans h₁.target
  recycled := h₂.recycled.trans h₁.recycled

namespace Turn

variable {p : Pattern} {fuel : Nat} {job : Job} {t t' : Turn} {calls : List Call} {id : TaskId}
  {task : Task} {r : Except PatternError Status}

theorem context_close : (t.close id r).context = t.context := by
  unfold close
  split <;> rfl

theorem Acts.context (h : Acts p id task t r t') : t.context.Alike t'.context := by
  cases h <;> exact ⟨rfl, rfl, rfl⟩

theorem Counts.context {state : RepeatState} {times : UInt32}
    (h : Counts p id task state t times t') : t.context.Alike t'.context := by
  cases h <;> exact ⟨rfl, rfl, rfl⟩

theorem context_rebind {room : Nat} {b : Bullet} {x : EStateM.Result PatternError Turn TaskId}
    (h : rebind p room id task b t = x) : t.context.Alike (state x).context := by
  subst h
  unfold rebind bindFor
  split <;> exact ⟨rfl, rfl, rfl⟩

/-- Tasks change neither the rank nor the target, and recycle no bullet. -/
theorem Runs.context (h : Runs p fuel job t calls r t') : t.context.Alike t'.context := by
  induction h with
  | exhausted => exact .refl _
  | stale => exact .refl _
  | finished => exact .refl _
  | leaf _ _ ha =>
    rw [context_close]
    exact ha.context
  | composite _ _ _ _ ih =>
    rw [context_close]
    exact ih
  | «repeat» _ _ _ hc _ ih =>
    rw [context_close]
    exact hc.context.trans ih
  | done => exact .refl _
  | skip _ _ ih => exact ih
  | halt _ _ _ _ ih => exact ih
  | cut _ _ _ _ ih => exact ih
  | next _ _ _ _ _ ih ih' => exact ih.trans ih'
  | lost => exact .refl _
  | bare => exact .refl _
  | spent => exact .refl _
  | hold _ _ _ _ ih => exact ih
  | vacant _ _ _ _ ih => exact ih
  | last _ _ _ _ _ ih => exact ih
  | unbound _ _ _ _ hb ih => exact ih.trans (context_rebind hb)
  | again _ _ _ _ hb _ ih ih' =>
    have hrebind := context_rebind hb
    exact (ih.trans hrebind).trans ih'

theorem RunsRoots.context {kept roots : List TaskId} (h : RunsRoots p kept roots t calls t') :
    t.context.Alike t'.context := by
  induction h with
  | done => exact .refl _
  | fault hr => exact hr.context
  | cut hr => exact hr.context
  | stays hr _ _ _ ih => exact hr.context.trans ih
  | last hr => exact hr.context
  | ends hr _ _ ih => exact hr.context.trans ih

theorem context_runTasks (t : Turn) : t.context.Alike t.runTasks.context := by
  obtain ⟨calls, hp⟩ := plays_runTasks t
  generalize t.runTasks = t' at hp
  cases hp with
  | idle => exact .refl _
  | runs _ hr => exact hr.context

end Turn
end Barrage

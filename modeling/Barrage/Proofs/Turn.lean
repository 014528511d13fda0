import Barrage.Proofs.Leaves

namespace Barrage

namespace Arena

variable {a a' a'' : Arena} {cs : List TaskId} {id : TaskId} {task : Task}

/-- The arena stays in order, and no slot goes back to an earlier generation. -/
structure Evolves (a a' : Arena) : Prop where
  grows : a.Grows a'
  sound : a'.Sound

theorem Evolves.trans (h₁ : a.Evolves a') (h₂ : a'.Evolves a'') : a.Evolves a'' :=
  ⟨h₁.grows.trans h₂.grows, h₂.sound⟩

theorem Evolves.bind (h₁ : a.Evolves a') (h₂ : a'.Sound → a'.Evolves a'') : a.Evolves a'' :=
  h₁.trans (h₂ h₁.sound)

theorem Sound.evolves (hs : a.Sound) : a.Evolves a := ⟨.refl a, hs⟩

theorem Sound.evolves_modify (hs : a.Sound) {f : Task → Task} : a.Evolves (a.modify id f) :=
  ⟨grows_modify, hs.modify⟩

theorem Replaces.evolves {X Y : Finset TaskId} (h : a.Replaces a' X Y) : a.Evolves a' :=
  ⟨h.grows, h.sound⟩

theorem contains_firstLive? {rest : List TaskId} (h : a.firstLive? cs = some (id, task, rest)) :
    a.contains id = true := by
  induction cs with
  | nil => cases h
  | cons c cs ih =>
    unfold firstLive? at h
    split at h
    · rename_i hc
      cases h
      exact contains_of_get? hc
    · exact ih h

theorem Sound.evolves_releaseFrom (rounds : Nat) (stack : List TaskId) (hs : a.Sound) :
    a.Evolves (releaseFrom rounds stack a).2 := by
  induction rounds generalizing stack a with
  | zero => exact hs.evolves
  | succ rounds ih =>
    unfold releaseFrom
    split
    · exact hs.evolves
    · rename_i id task stack h
      have hr := hs.remove (contains_firstLive? h)
      exact Evolves.trans ⟨grows_remove, hr.1⟩ (ih (task.children.reverse ++ stack) hr.1)

theorem Sound.evolves_release (hs : a.Sound) : a.Evolves (a.release id).2 :=
  hs.evolves_releaseFrom _ _

end Arena

namespace Turn

section Own

variable {fire : TaskId} {roots cs : List TaskId} {a : Arena} {X : Finset TaskId}

theorem evolves_own (hs : a.Sound) : a.Evolves (own fire roots a) := by
  induction roots generalizing a with
  | nil => exact hs.evolves
  | cons root roots ih => exact hs.evolves_modify.trans (ih hs.modify)

theorem contains_own {id : TaskId} : (own fire roots a).contains id = a.contains id := by
  induction roots generalizing a with
  | nil => rfl
  | cons root roots ih => exact ih.trans Arena.contains_modify

theorem spans_own (h : a.Spans cs X) : (own fire roots a).Spans cs X := by
  induction roots generalizing a with
  | nil => exact h
  | cons root roots ih => exact ih (h.modify fun _ => rfl)

theorem fit_own {g : Prop} {p : Pattern} (h : a.Fit g p X) : (own fire roots a).Fit g p X := by
  induction roots generalizing a with
  | nil => exact h
  | cons root roots ih => exact ih (h.modify fun _ _ hf => ⟨hf.bound, hf.held⟩)

theorem replaces_own (hs : a.Sound) (hr : ∀ root ∈ roots, root ∈ X) :
    a.Replaces (own fire roots a) X X := by
  induction roots generalizing a with
  | nil => exact .refl hs X
  | cons root roots ih =>
    have hm := hs.replaces_modify (f := fun task => { task with owner := some fire })
      (hr root List.mem_cons_self)
    exact hm.trans (ih hm.sound fun r h => hr r (List.mem_cons_of_mem _ h))

end Own

variable {g : Prop} {p : Pattern} {fuel : Nat} {job : Job} {t t' : Turn} {id : TaskId}
  {task : Task} {calls : List Call} {r : Except PatternError Status}

theorem Acts.evolves (h : Acts p id task t r t') (hs : t.tasks.Sound) :
    t.tasks.Evolves t'.tasks := by
  cases h with
  | steers => exact hs.evolves_modify
  | vanishes => exact hs.evolves
  | empty => exact hs.evolves
  | unheld => exact hs.evolves
  | drops => exact hs.evolves
  | misfires _ _ _ _ hb =>
    exact (Binder.bindRoots_error (g := False) (s := ⟨t.tasks, _⟩) hs hb nofun nofun).1.evolves
  | fires _ _ _ _ hb =>
    obtain ⟨_, _, hr, _⟩ :=
      Binder.bindRoots_ok (g := False) (s := ⟨t.tasks, _⟩) hs hb nofun nofun
    exact hr.evolves.trans (evolves_own hr.sound)

theorem Counts.evolves {st : RepeatState} {times : UInt32} (h : Counts p id task st t times t')
    (hs : t.tasks.Sound) : t.tasks.Evolves t'.tasks := by
  cases h with
  | known => exact hs.evolves
  | finds => exact hs.evolves_modify

theorem evolves_start (id : TaskId) (hs : t.tasks.Sound) :
    t.tasks.Evolves (t.start id).tasks := hs.evolves_modify

theorem evolves_countBody (body id : TaskId) (task : Task) (hs : t.tasks.Sound) :
    t.tasks.Evolves ((t.shed body).countBody id task).tasks :=
  hs.evolves_release.trans hs.evolves_release.sound.evolves_modify

theorem evolves_adopt (id child : TaskId) (hs : t.tasks.Sound) :
    t.tasks.Evolves (t.adopt id child).tasks := hs.evolves_modify

theorem grows_close (id : TaskId) (r : Except PatternError Status) :
    t.tasks.Grows (t.close id r).tasks := by
  unfold close
  split
  · exact Arena.grows_modify
  · exact .refl _

theorem evolves_close (hs : t.tasks.Sound) : t.tasks.Evolves (t.close id r).tasks := by
  unfold close
  split
  · exact hs.evolves_modify
  · exact hs.evolves

section Rebind

variable {room : Nat} {fresh : TaskId} {b : Bullet} {e : PatternError}

theorem rebind_ok (hs : t.tasks.Sound) (h : rebind p room id task b t = .ok fresh t')
    (hp : g → p.Closed) (hb : g → p.Bound task.node task.kind) (hk : task.kind.isRepeat = true) :
    ∃ tree X, t.tasks.Replaces t'.tasks ∅ X ∧ t'.tasks.Holds (some id) [fresh] [tree] X ∧
      t'.tasks.Fit g p X ∧ t'.pool = t.pool ∧ t.Keeps t' := by
  unfold rebind bindFor at h
  split at h
  · rename_i hm
    cases h
    obtain ⟨tree, X, hr, hh, hf⟩ := Binder.bindBody_ok (b := ⟨p, t.context.rank, b⟩) hs hm hp
      (fun hg => (hb hg).node) fun hg => (hb hg).body hk
    exact ⟨tree, X, hr, hh, hf, rfl, .of_eq rfl rfl⟩
  · cases h

theorem rebind_error (hs : t.tasks.Sound) (h : rebind p room id task b t = .error e t')
    (hp : g → p.Closed) (hb : g → p.Bound task.node task.kind) (hk : task.kind.isRepeat = true) :
    t.tasks.Replaces t'.tasks ∅ ∅ ∧ (g → p.Raises e) ∧ t'.pool = t.pool ∧ t.Keeps t' := by
  unfold rebind bindFor at h
  split at h
  · cases h
  · rename_i hm
    cases h
    obtain ⟨hr, hraise⟩ := Binder.bindBody_error (b := ⟨p, t.context.rank, b⟩) hs hm hp
      (fun hg => (hb hg).node) fun hg => (hb hg).body hk
    exact ⟨hr, hraise, rfl, .of_eq rfl rfl⟩

theorem evolves_rebind (hs : t.tasks.Sound) {x : EStateM.Result PatternError Turn TaskId}
    (h : rebind p room id task b t = x) : t.tasks.Evolves (state x).tasks := by
  subst h
  unfold rebind bindFor
  split
  · rename_i hm
    obtain ⟨_, _, hr, _⟩ := Binder.bindBody_ok (g := False) (b := ⟨p, t.context.rank, b⟩) hs hm
      nofun nofun nofun
    exact hr.evolves
  · rename_i hm
    exact (Binder.bindBody_error (g := False) (b := ⟨p, t.context.rank, b⟩) hs hm
      nofun nofun nofun).1.evolves

end Rebind

/-- Whatever a run does, the arena stays in order. -/
theorem Runs.evolves (h : Runs p fuel job t calls r t') (hs : t.tasks.Sound) :
    t.tasks.Evolves t'.tasks := by
  induction h with
  | exhausted => exact hs.evolves
  | stale => exact hs.evolves
  | finished => exact hs.evolves
  | leaf _ _ ha => exact (evolves_start _ hs).bind fun h => (ha.evolves h).bind evolves_close
  | composite _ _ _ _ ih => exact (evolves_start _ hs).bind fun h => (ih h).bind evolves_close
  | «repeat» _ _ _ hc _ ih =>
    exact (evolves_start _ hs).bind fun h => (hc.evolves h).bind fun h => (ih h).bind evolves_close
  | done => exact hs.evolves
  | skip _ _ ih => exact ih hs
  | halt _ _ _ _ ih => exact ih hs
  | cut _ _ _ _ ih => exact ih hs
  | next _ _ _ _ _ ih ih' => exact (ih hs).bind ih'
  | lost => exact hs.evolves
  | bare => exact hs.evolves
  | spent => exact hs.evolves_release
  | hold _ _ _ _ ih => exact ih hs
  | vacant _ _ _ _ ih => exact (ih hs).bind fun h => h.evolves_release
  | last _ _ _ _ _ ih => exact (ih hs).bind (evolves_countBody _ _ _)
  | unbound _ _ _ _ hb ih =>
    exact (ih hs).bind fun h => (evolves_countBody _ _ _ h).bind fun h => evolves_rebind h hb
  | again _ _ _ _ hb _ ih ih' =>
    exact (ih hs).bind fun h => (evolves_countBody _ _ _ h).bind fun h =>
      (evolves_rebind h hb).bind fun h => (evolves_adopt _ _ h).bind ih'

theorem evolves_runTask (p : Pattern) (fuel : Nat) (id : TaskId) (hs : t.tasks.Sound) :
    t.tasks.Evolves (state (runTask p fuel id t)).tasks := by
  obtain ⟨_, h⟩ := runs_task p fuel id t
  exact h.evolves hs

theorem evolves_runSequence (p : Pattern) (fuel : Nat) (ids : List TaskId) (status : Status)
    (hs : t.tasks.Sound) :
    t.tasks.Evolves (state (runSequence (runTask p fuel) ids status t)).tasks := by
  obtain ⟨_, h⟩ := runs_sequence (runs_task p fuel) ids status t
  exact h.evolves hs

theorem evolves_runBodies (p : Pattern) (fuel room : Nat) (id : TaskId) (left : Nat)
    (hs : t.tasks.Sound) :
    t.tasks.Evolves (state (runBodies p (runTask p fuel) room id left t)).tasks := by
  obtain ⟨_, h⟩ := runs_bodies (runs_task p fuel) room id left t
  exact h.evolves hs

theorem evolves_endBody (p : Pattern) (fuel room : Nat) (id body : TaskId) (left : Nat)
    (hs : t.tasks.Sound) : (t.shed body).tasks.Evolves
      (state (endBody p (runTask p fuel) room id body left t)).tasks := by
  have hshed : (t.shed body).tasks.Sound := hs.evolves_release.sound
  cases ht : (t.shed body).tasks.get? id with
  | none =>
    rw [endBody, bind_of_error (finishBody_of_none ht)]
    exact hshed.evolves
  | some task =>
    by_cases hl : left = 0 ∨ t.bullet.vanished = true
    · rw [endBody_of_last ht hl]
      exact hshed.evolves_modify
    · rw [endBody_of_due ht hl]
      have hcount : (t.shed body).tasks.Evolves ((t.shed body).countBody id task).tasks :=
        hshed.evolves_modify
      cases hb : rebind p room id task t.bullet ((t.shed body).countBody id task) with
      | error e t' => exact hcount.bind fun h => evolves_rebind h hb
      | ok fresh t' =>
        exact hcount.bind fun h => (evolves_rebind h hb).bind fun h =>
          (evolves_adopt id fresh h).bind (evolves_runBodies p fuel room id left)

theorem bullet_close {id : TaskId} : (t.close id r).bullet = t.bullet := by
  unfold close
  split <;> rfl

theorem isFinished_advance {phase : Phase} (h : (task.advance phase).isFinished = false) :
    task.isFinished = false := by
  revert h
  cases hp : task.phase <;> cases phase <;> simp [Task.isFinished, Task.advance, Phase.later,
    Phase.order, hp]

theorem isFinished_running (h : task.isFinished = false) :
    (task.advance .running).isFinished = false := by
  revert h
  cases hp : task.phase <;> simp [Task.isFinished, Task.advance, Phase.later, Phase.order, hp]

theorem isFinished_finished : (task.advance .finished).isFinished = true := by
  cases hp : task.phase <;> simp [Task.isFinished, Task.advance, Phase.later, Phase.order, hp]

theorem fits_advance {a : Arena} {phase : Phase} (h : task.Fits g p a) :
    (task.advance phase).Fits g p a :=
  ⟨h.bound, fun hf => h.held (isFinished_advance hf)⟩

variable {ok : Prop} {cs : List TaskId} {X : Finset TaskId}

theorem get?_start (ht : t.tasks.get? id = some task) :
    (t.start id).tasks.get? id = some (task.advance .running) := by
  rw [start, Arena.get?_modify, if_pos rfl, ht]
  rfl

theorem leaves_start (hs : t.tasks.Spans cs X) (ha : t.tasks.Sound) (hp : t.pool.Sound)
    (hid : id ∈ X) : Leaves g ok p t (t.start id) cs X X ∅ [] :=
  .modify hs ha hp hid rfl rfl (.of_eq rfl rfl) (fun _ => rfl) fun _ _ => fits_advance

theorem leaves_close (hs : t.tasks.Spans cs X) (ha : t.tasks.Sound) (hp : t.pool.Sound)
    (hid : id ∈ X) : Leaves g ok p t (t.close id r) cs X X ∅ [] := by
  unfold close
  split
  · exact .modify hs ha hp hid rfl rfl (.of_eq rfl rfl) (fun _ => rfl) fun _ _ => fits_advance
  · exact .refl hs ha hp

def Succeeds (r : Except PatternError Status) : Prop := ∃ status, r = .ok status

theorem not_succeeds {e : PatternError} : ¬Succeeds (.error e) := nofun

section Fire

variable {owner : Option TaskId} {roots : List TaskId} {trees : List TaskTree} {tasks : Arena}
  {Y : Finset TaskId} {shot : Bullet}

/-- A shot that could not be bound is gone, and so is its slot. -/
theorem leaves_misfire (hs : t.tasks.Spans cs X) (hr : t.tasks.Replaces t'.tasks ∅ ∅)
    (ha : t.pool.Adds t'.pool []) (hk : t.Keeps t') (hok : ¬ok) :
    Leaves g ok p t t' cs X X ∅ [] := by
  have hempty := Finset.disjoint_empty_left X
  have hframe := hr.frame (fun k hk => hs.contains hk) hempty
  rw [Finset.empty_union] at hframe
  refine ⟨.idle hframe ha, hs.outlive hr hempty, ?_, hk, fun ho => absurd ho hok, fun _ => .empty⟩
  intro c _ hl
  exact hr.keeps hl (Finset.notMem_empty c)

/-- A shot is put into play with the tasks that were bound for it. -/
theorem leaves_fire (hs : t.tasks.Spans cs X) (hr : t.tasks.Replaces tasks ∅ Y)
    (hh : tasks.Holds owner roots trees Y) (hfit : tasks.Fit g p Y)
    (ht : t'.tasks = own id roots tasks) (ha : t.pool.Adds t'.pool [shot])
    (hroots : shot.tasks = roots) (hl : shot.LaunchedFrom t.bullet) (hk : t.Keeps t')
    (hw : t'.tasks.NoWrap) : Leaves g ok p t t' cs X X Y [shot] := by
  rw [ht] at hw
  have hempty := Finset.disjoint_empty_left X
  have hlive : ∀ k ∈ X, t.tasks.contains k = true := fun k hk => hs.contains hk
  have hX := hs.apart hr hempty ((evolves_own hr.sound).grows.noWrap hw)
  have hown : ∀ root ∈ roots, root ∈ X ∪ Y := fun root h =>
    Finset.mem_union_right _ (hh.spans.mem_of_live h (hh.contains h))
  have hframe := hr.frame hlive hempty
  rw [Finset.empty_union, Finset.union_comm] at hframe
  refine ⟨⟨?_, (hr.disjoint hlive hempty).symm, ?_, ?_, ha, ?_⟩, ht ▸ spans_own hX, ?_, hk, ?_, ?_⟩
  · rw [List.flatMap_cons, List.flatMap_nil, List.append_nil, hroots, ht]
    exact spans_own hh.spans
  · rw [ht]
    exact hframe.trans (replaces_own hr.sound hown)
  · intro b hb c hc
    rw [List.mem_singleton.1 hb, hroots] at hc
    rw [ht]
    exact contains_own.trans (hh.contains hc)
  · intro b hb
    rw [List.mem_singleton.1 hb]
    exact hl
  · intro c _ hc
    rw [ht]
    exact contains_own.trans (hr.keeps hc (Finset.notMem_empty c))
  · intro _ hfitX
    rw [ht]
    exact fit_own (hfitX.apart hs hr hempty)
  · intro _
    rw [ht]
    exact fit_own hfit

end Fire

theorem Acts.leaves (h : Acts p id task t r t')
    (ht : t.tasks.get? id = some (task.advance .running)) (hf : task.isFinished = false)
    (hs : t.tasks.Spans [id] X) (ha : t.tasks.Sound)
    (hpool : t.pool.Sound) (hfit : t.tasks.Fit g p X) (hp : g → p.Closed)
    (hw : t'.tasks.NoWrap) :
    ∃ N shots, Leaves g (Succeeds r) p t t' [id] X X N shots ∧
      (task.kind.isFire = false → shots = []) ∧ ∀ e, r = .error e → g → p.Raises e := by
  have hid : id ∈ X := hs.mem_of_live (List.mem_singleton_self id) (Arena.contains_of_get? ht)
  have hself := hfit id hid _ ht
  have held (hk : task.kind.holdsOne = true) : ∃ c, task.children = [c] ∧
      t.tasks.contains c = true := hself.held (isFinished_running hf) hk
  cases h with
  | steers hk _ =>
    refine ⟨∅, [], .modify hs ha hpool hid rfl rfl ⟨⟨rfl, rfl, rfl, rfl⟩, rfl, .refl _⟩
      (fun _ => rfl) ?_, fun _ => rfl, nofun⟩
    intro task' ht' hfits
    rw [ht, Option.some.injEq] at ht'
    subst ht'
    refine ⟨fun hg => (hfits.bound hg).of_shape hk, fun hfin ho => hfits.held hfin ?_⟩
    rw [← TaskKind.holdsOne_shape, hk, TaskKind.holdsOne_shape] at ho
    exact ho
  | vanishes =>
    exact ⟨∅, [], .still hs ha hpool rfl rfl ⟨⟨rfl, rfl, rfl, rfl⟩, rfl, .refl _⟩,
      fun _ => rfl, nofun⟩
  | empty hk hc =>
    obtain ⟨c, hc', _⟩ := held (by rw [hk]; rfl)
    rw [hc] at hc'
    cases hc'
  | unheld hk hc hh =>
    obtain ⟨c, hc', hl⟩ := held (by rw [hk]; rfl)
    rw [hc] at hc'
    cases hc'
    simp [Arena.contains, hh] at hl
  | drops =>
    exact ⟨∅, [], .still hs ha hpool rfl rfl (.of_eq rfl rfl), fun _ => rfl, nofun⟩
  | @misfires _ _ _ _ shotId pool _ _ _ tasks _ _ hk hc hh hcreate hb =>
    obtain ⟨hr, hraise⟩ := Binder.bindRoots_error (s := ⟨t.tasks, _⟩) ha hb hp
      fun n hn hg => (hp hg).children _ n (List.mem_of_mem_filter hn)
    have hadds : t.pool.Adds (pool.remove shotId).2 [] := (hpool.reserves_create hcreate).remove
    refine ⟨∅, [], leaves_misfire hs hr hadds (.of_eq rfl rfl) not_succeeds, fun _ => rfl, ?_⟩
    intro e he
    cases he
    exact hraise
  | @fires _ _ _ _ shotId pool direction speed roots tasks _ _ hk hc hh hcreate hb =>
    obtain ⟨trees, Y, hr, hh', hfitY⟩ := Binder.bindRoots_ok (s := ⟨t.tasks, _⟩) ha hb hp
      fun n hn hg => (hp hg).children _ n (List.mem_of_mem_filter hn)
    have hadds : t.pool.Adds
        (pool.place { t.shot shotId direction speed with tasks := roots }) _ :=
      Pool.Reserves.place (hpool.reserves_create hcreate)
    refine ⟨Y, _, leaves_fire hs hr hh' hfitY rfl hadds rfl ⟨rfl, rfl, rfl, rfl⟩ (.of_eq rfl rfl) hw,
      ?_, nofun⟩
    intro h
    rw [hk] at h
    cases h

end Turn
end Barrage

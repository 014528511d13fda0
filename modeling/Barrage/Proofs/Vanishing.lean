import Barrage.Proofs.Entering
import Barrage.Proofs.Logging
import Barrage.Proofs.Termination

namespace Barrage

/-- What is left of a task in which nothing runs any more: it may be over or have lost children,
and a `repeat` may have counted a body. -/
structure Task.Settles (task task' : Task) : Prop where
  children : task'.children ⊆ task.children
  repeats : task'.kind.isRepeat = task.kind.isRepeat
  kind : task.kind.isRepeat = false → task'.kind = task.kind
  rest : task' = { task with
    phase := task'.phase, kind := task'.kind, children := task'.children }

namespace Task.Settles

variable {task task' task'' : Task}

theorem refl (task : Task) : task.Settles task := ⟨List.Subset.refl _, rfl, fun _ => rfl, rfl⟩

theorem trans (h₁ : task.Settles task') (h₂ : task'.Settles task'') : task.Settles task'' where
  children := List.Subset.trans h₂.children h₁.children
  repeats := h₂.repeats.trans h₁.repeats
  kind hk := (h₂.kind (h₁.repeats.trans hk)).trans (h₁.kind hk)
  rest := by rw [h₂.rest, h₁.rest]

theorem advance (task : Task) (phase : Phase) : task.Settles (task.advance phase) :=
  ⟨List.Subset.refl _, rfl, fun _ => rfl, rfl⟩

theorem countBody (task : Task) : task.Settles task.countBody where
  children := List.nil_subset _
  repeats := by
    unfold Task.countBody
    cases task.kind <;> rfl
  kind hk := by
    revert hk
    unfold Task.countBody
    cases task.kind <;> simp [TaskKind.isRepeat]
  rest := rfl

end Task.Settles

namespace Arena

/-- Tasks were let go for good or have settled, and none are new. -/
structure Settles (a a' : Arena) : Prop where
  grows : a.Grows a'
  gone : ∀ k, a.contains k = true → ¬a'.contains k = true → a'.IsDead k
  tasks : ∀ k task', a'.get? k = some task' → ∃ task, a.get? k = some task ∧ task.Settles task'

namespace Settles

variable {a a' a'' : Arena} {id k : TaskId} {cs ds : List TaskId} {X Y : Finset TaskId}

theorem refl (a : Arena) : a.Settles a :=
  ⟨.refl a, fun _ h hn => absurd h hn, fun _ task' h => ⟨task', h, .refl _⟩⟩

theorem contains (h : a.Settles a') (hk : a'.contains k = true) : a.contains k = true := by
  obtain ⟨task', ht'⟩ := contains_iff.1 hk
  obtain ⟨task, ht, _⟩ := h.tasks k task' ht'
  exact contains_of_get? ht

theorem trans (h₁ : a.Settles a') (h₂ : a'.Settles a'') : a.Settles a'' where
  grows := h₁.grows.trans h₂.grows
  gone k hk hn := by
    by_cases hk' : a'.contains k = true
    · exact h₂.gone k hk' hn
    · exact (h₁.gone k hk hk').grows h₂.grows
  tasks k task'' ht'' := by
    obtain ⟨task', ht', hs'⟩ := h₂.tasks k task'' ht''
    obtain ⟨task, ht, hs⟩ := h₁.tasks k task' ht'
    exact ⟨task, ht, hs.trans hs'⟩

theorem of_modify {f : Task → Task} (hf : ∀ task, a.get? id = some task → task.Settles (f task)) :
    a.Settles (a.modify id f) where
  grows := grows_modify
  gone k hk hn := by
    rw [contains_modify] at hn
    exact absurd hk hn
  tasks k task' h := by
    rw [get?_modify] at h
    split at h
    · rename_i hk
      obtain ⟨task, ht, rfl⟩ := Option.map_eq_some_iff.1 h
      exact ⟨task, hk ▸ ht, hf task ht⟩
    · exact ⟨task', h, .refl _⟩

theorem of_remove (h : a.contains id = true) : a.Settles (a.remove id) where
  grows := grows_remove
  gone k hk hn := by
    rw [Arena.contains, get?_remove] at hn
    split at hn
    · rename_i he
      rw [he]
      exact isDead_remove h
    · exact absurd hk hn
  tasks k task' ht' := by
    rw [get?_remove] at ht'
    split at ht'
    · cases ht'
    · exact ⟨task', ht', .refl _⟩

theorem of_releaseFrom (rounds : Nat) (stack : List TaskId) (a : Arena) :
    a.Settles (a.releaseFrom rounds stack).2 := by
  induction rounds generalizing stack a with
  | zero => exact .refl a
  | succ rounds ih =>
    rw [releaseFrom]
    cases hl : a.firstLive? stack with
    | none => exact .refl a
    | some found => exact (of_remove (contains_firstLive? hl)).trans (ih _ _)

theorem of_release (a : Arena) (id : TaskId) : a.Settles (a.release id).2 := of_releaseFrom _ _ _

/-- A forest whose roots stand in another one is within it, once things have settled. -/
theorem subset (h : a.Settles a') (hX : a.Spans cs X) (hY : a'.Spans ds Y)
    (hd : ∀ c ∈ ds, a'.contains c = true → c ∈ X) : Y ⊆ X := by
  induction hY with
  | nil => exact Finset.empty_subset X
  | dead _ _ _ ih => exact ih fun c hc => hd c (List.mem_cons_of_mem _ hc)
  | @live c ds task' Y Z ht' _ _ _ _ ihc ihs =>
    obtain ⟨task, ht, hs⟩ := h.tasks c task' ht'
    have hself := hd c List.mem_cons_self (contains_of_get? ht')
    have hbelow : Y ⊆ X := ihc fun k hk hl => hX.closed hself ht (hs.children hk) (h.contains hl)
    have hrest : Z ⊆ X := ihs fun k hk => hd k (List.mem_cons_of_mem _ hk)
    exact Finset.union_subset (Finset.union_subset (Finset.singleton_subset_iff.2 hself) hbelow)
      hrest

end Settles
end Arena

namespace Turn

/-- Between the two states nothing was run or bound: tasks were at most let go, closed or counted,
and nothing else has changed. -/
structure Winds (t t' : Turn) : Prop where
  bullet : t'.bullet = { t.bullet with tasks := t'.bullet.tasks }
  pool : t'.pool = t.pool
  context : t'.context = t.context
  notices : t'.notices = t.notices
  tasks : t.tasks.Settles t'.tasks

variable {p : Pattern} {fuel room left : Nat} {job : Job} {t t' t'' : Turn} {id body : TaskId}
  {ids : List TaskId} {task : Task} {c d : Call} {inner outer calls : List Call}
  {r : Except PatternError Status} {status : Status} {X : Finset TaskId}

section Winds

theorem Winds.refl (t : Turn) : t.Winds t := ⟨rfl, rfl, rfl, rfl, .refl _⟩

theorem Winds.trans (h₁ : t.Winds t') (h₂ : t'.Winds t'') : t.Winds t'' where
  bullet := by rw [h₂.bullet, h₁.bullet]
  pool := h₂.pool.trans h₁.pool
  context := h₂.context.trans h₁.context
  notices := h₂.notices.trans h₁.notices
  tasks := h₁.tasks.trans h₂.tasks

theorem Winds.vanished (h : t.Winds t') : t'.bullet.vanished = t.bullet.vanished := by
  rw [h.bullet]

theorem winds_dismiss (t : Turn) (root : TaskId) (roots : List TaskId) :
    t.Winds (t.dismiss root roots) :=
  ⟨rfl, rfl, rfl, rfl, .of_release t.tasks root⟩

theorem winds_close : t.Winds (t.close id r) := by
  unfold close
  split
  · exact ⟨rfl, rfl, rfl, rfl, .of_modify fun task _ => .advance task _⟩
  · exact .refl t

theorem winds_countBody (ht : (t.shed body).tasks.get? id = some task) :
    t.Winds ((t.shed body).countBody id task) := by
  refine ⟨rfl, rfl, rfl, rfl, (Arena.Settles.of_release t.tasks body).trans (.of_modify ?_)⟩
  intro task' ht'
  rw [show (t.tasks.release body).2.get? id = _ from ht, Option.some.injEq] at ht'
  subst ht'
  exact .countBody task

end Winds

/-- The call executes a vanish that is live and not over. -/
def Call.Vanishes (c : Call) : Prop :=
  ∃ task, c.before.tasks.get? c.task = some task ∧ task.isFinished = false ∧ task.kind = .vanish

instance (c : Call) : Decidable c.Vanishes :=
  decidable_of_iff ((c.before.tasks.get? c.task).any fun task =>
    !task.isFinished && task.kind matches .vanish) <| by
    rw [Option.any_eq_true]
    apply exists_congr
    intro task
    rw [Bool.and_eq_true, Bool.not_eq_true']
    apply and_congr_right'
    apply and_congr_right'
    cases task.kind <;> simp

/-- Of the calls in a log, `inner ++ c :: outer`, `c` was the last, and it has left nothing to do.
Each call before it was over by then, or it stands around `c` and has ended with it. -/
structure Halts (p : Pattern) (inner : List Call) (c : Call) (outer : List Call) (t' : Turn) :
    Prop where
  last : outer = []
  ended : c.answer = .ok .ended
  marks : c.after = { c.before with
    bullet := c.before.bullet.vanish
    tasks := c.after.tasks }
  settles : c.before.tasks.Settles c.after.tasks
  winds : c.after.Winds t'
  around : ∀ pre d post, inner = pre ++ d :: post →
    (∃ within rest, post = within ++ rest ∧ d.Ran p within) ∨
      d.Ran p (post ++ [c]) ∧ d.answer = .ok .ended

section Halts

theorem Halts.vanished (h : Halts p inner c outer t') : c.after.bullet.vanished = true := by
  rw [h.marks]
  rfl

theorem Halts.over (h : Halts p inner c outer t') : t'.bullet.vanished = true :=
  h.winds.vanished.trans h.vanished

theorem Halts.winding (h : Halts p inner c outer t') (hw : t'.Winds t'') :
    Halts p inner c outer t'' :=
  { h with winds := h.winds.trans hw }

/-- What has been run before is over. -/
theorem Halts.after (h : Halts p inner c outer t') (hn : Nested p calls) :
    Halts p (calls ++ inner) c outer t' where
  last := h.last
  ended := h.ended
  marks := h.marks
  settles := h.settles
  winds := h.winds
  around pre d post hd := by
    rcases mem_or_split hd with ⟨rest, hcalls, rfl⟩ | ⟨front, hinner, rfl⟩
    · obtain ⟨within, last, rfl, hran⟩ := hn pre d rest hcalls
      exact .inl ⟨within, last ++ inner, List.append_assoc _ _ _, hran⟩
    · exact h.around front d post hinner

/-- What is being run around it ends with it. -/
theorem Halts.within (h : Halts p inner c outer t') (hran : d.Ran p (inner ++ c :: outer))
    (hd : d.answer = .ok .ended) : Halts p (d :: inner) c outer t' where
  last := h.last
  ended := h.ended
  marks := h.marks
  settles := h.settles
  winds := h.winds
  around pre e post he := by
    cases pre with
    | nil =>
      cases he
      rw [h.last] at hran
      exact .inr ⟨hran, hd⟩
    | cons f pre =>
      rw [List.cons_append, List.cons.injEq] at he
      exact h.around pre e post he.2

/-- With this fuel, a vanish halts whatever the interpreter runs for a task with short chains. -/
def HaltsAt (p : Pattern) (fuel : Nat) : Prop :=
  ∀ id t X inner c outer, Starts False p (.task id) X t → t.tasks.Within fuel id →
    (state (runTask p fuel id t)).tasks.NoWrap → logTask p fuel id t = inner ++ c :: outer →
    c.Vanishes → ∃ t', runTask p fuel id t = .ok .ended t' ∧ Halts p inner c outer t'

theorem HaltsAt.sequence (h : HaltsAt p fuel) (hs : Starts False p (.sequence ids status) X t)
    (hin : ∀ k ∈ ids, t.tasks.Within fuel k)
    (hw : (state (runSequence (runTask p fuel) ids status t)).tasks.NoWrap)
    (hl : logSequence (runTask p fuel) (logTask p fuel) ids t = inner ++ c :: outer)
    (hc : c.Vanishes) :
    ∃ t', runSequence (runTask p fuel) ids status t = .ok .ended t' ∧ Halts p inner c outer t' := by
  induction ids generalizing status t X inner with
  | nil => simp [logSequence] at hl
  | cons id ids ih =>
    obtain ⟨Xc, Xs, rfl, hd, _, htail, hhead⟩ := hs.of_cons
    have hself := hin id List.mem_cons_self
    have hrest (k) (hk : k ∈ ids) := hin k (List.mem_cons_of_mem _ hk)
    cases hf : t.tasks.isFinished id with
    | true =>
      rw [runSequence_of_finished hf] at hw ⊢
      rw [logSequence_of_finished hf] at hl
      exact ih (htail status) hrest hw hl
    | false =>
      rcases sequence_cases (runTask p fuel) (logTask p fuel) ids hf with
        ⟨answer, t₁, hr, _, hv, hlog, hnext⟩ | ⟨hlog, hstop⟩
      · rw [hnext status] at hw ⊢
        rw [hlog] at hl
        have hrun := (logged_task p fuel id t).ran hr
        have hw₁ := (evolves_runSequence p fuel ids _ (hrun.evolves hs.tasks).sound).grows.noWrap hw
        rcases mem_or_split hl with ⟨rest, hhere, _⟩ | ⟨more, hthere, rfl⟩
        · have hw₀ : (state (runTask p fuel id t)).tasks.NoWrap := by
            rw [hr]
            exact hw₁
          obtain ⟨t', hr', hhalt⟩ := h id t Xc inner c rest (hhead hf) hself hw₀ hhere hc
          rw [hr] at hr'
          cases hr'
          exact absurd hhalt.over (by rw [hv]; decide)
        · obtain ⟨Xc', N, shots, ho⟩ := hrun.outcome False.elim (hhead hf) hw₁
          obtain ⟨_, _, hstarts⟩ := ho.next (htail .ended) hd hw₁
          have hpersists := hrun.persists hs.tasks trivial hw₁
          obtain ⟨t', hr', hhalt⟩ :=
            ih hstarts (fun k hk => hpersists.within _ _ (hrest k hk)) hw hthere
          exact ⟨t', hr', hhalt.after (nested_logTask p fuel id t)⟩
      · obtain ⟨hstate, hended⟩ := hstop status
        rw [hstate] at hw
        rw [hlog] at hl
        obtain ⟨t', hr', hhalt⟩ := h id t Xc inner c outer (hhead hf) hself hw hl hc
        exact ⟨t', hended t' hr', hhalt⟩

/-- The bodies of a `repeat` go on from what the first of them leaves. -/
theorem grows_body (fuel : Nat) (hs : t.tasks.Sound) (ht : t.tasks.get? id = some task)
    {rest : List TaskId} (hc : task.children = body :: rest) :
    (state (runTask p fuel body t)).tasks.Grows
      (state (runBodies p (runTask p fuel) room id (left + 1) t)).tasks := by
  cases hr : runTask p fuel body t with
  | error e t' =>
    rw [runBodies_of_error ht hc hr]
    exact .refl _
  | ok answer t' =>
    by_cases ha : answer = .ended
    · subst ha
      have hrun := evolves_runTask p fuel body hs
      rw [hr] at hrun
      rw [runBodies_of_ended ht hc hr]
      exact hrun.sound.evolves_release.grows.trans
        (evolves_endBody p fuel room id body left hrun.sound).grows
    · rw [runBodies_of_hold ht hc hr ha]
      exact .refl _

theorem HaltsAt.bodies (h : HaltsAt p fuel) (hs : Starts False p (.bodies room id left) X t)
    (hj : (Job.bodies room id left).Sized t) (hroom : room < fuel)
    (hin : ∀ task, t.tasks.get? id = some task → ∀ k ∈ task.children, t.tasks.Within fuel k)
    (hw : (state (runBodies p (runTask p fuel) room id left t)).tasks.NoWrap)
    (hl : logBodies p (runTask p fuel) (logTask p fuel) room id left t = inner ++ c :: outer)
    (hc : c.Vanishes) :
    ∃ t', runBodies p (runTask p fuel) room id left t = .ok .ended t' ∧
      Halts p inner c outer t' := by
  induction left generalizing t X inner with
  | zero => simp [logBodies] at hl
  | succ left ih =>
    obtain ⟨task, ht, _, _⟩ := hs.ready
    obtain ⟨body, Y, hone, rfl, hid, hbody, hf, hk, hbound⟩ := hs.held ht
    have hself := hin task ht body (hone ▸ List.mem_singleton_self body)
    have hw₀ := (grows_body fuel hs.tasks ht hone).noWrap hw
    rcases bodies_cases p (runTask p fuel) (logTask p fuel) room left ht hone with
      ⟨t₁, task', fresh, t₂, hr, hv, ht', hb, hlog, hnext⟩ | hlog
    · rw [hnext] at hw ⊢
      rw [hlog] at hl
      rcases mem_or_split hl with ⟨rest, hhere, _⟩ | ⟨more, hthere, rfl⟩
      · obtain ⟨t', hr', hhalt⟩ := h body t Y inner c rest hbody hself hw₀ hhere hc
        rw [hr] at hr'
        cases hr'
        exact absurd hhalt.over (by rw [hv]; decide)
      · have hrun := (logged_task p fuel body t).ran hr
        have hsound := (hrun.evolves hs.tasks).sound
        have hbind := (evolves_countBody body id task' hsound).bind fun h => evolves_rebind h hb
        have hw₂ := (evolves_runBodies p fuel room id left
          (evolves_adopt id fresh hbind.sound).sound).grows.noWrap hw
        have hwc := noWrap_rebind hsound hb (Arena.grows_modify.noWrap hw₂)
        have hw₁ := noWrap_countBody hsound hwc
        obtain ⟨Y', N, shots, ho⟩ := hrun.outcome False.elim hbody hw₁
        obtain ⟨W, _, hstarts⟩ := hs.again False.elim ho rfl hid ht hone hf hk hbound ht' hb hw₂
        obtain ⟨_, hsized, hfresh⟩ :=
          persists_rebound (hrun.persists hs.tasks trivial hw₁) hj ht ht' hb hw₂
        have hbelow (task₂) (ht₂ : (t₂.adopt id fresh).tasks.get? id = some task₂) (k)
            (hk : k ∈ task₂.children) : (t₂.adopt id fresh).tasks.Within fuel k :=
          (hfresh task₂ ht₂ k hk).mono hroom
        obtain ⟨t', hr', hhalt⟩ := ih hstarts hsized hbelow hw hthere
        exact ⟨t', hr', hhalt.after (nested_logTask p fuel body t)⟩
    · rw [hlog] at hl
      obtain ⟨t₁, hr, hhalt⟩ := h body t Y inner c outer hbody hself hw₀ hl hc
      have hrun := (logged_task p fuel body t).ran hr
      rw [hr] at hw₀
      obtain ⟨Y', N, shots, ho⟩ := hrun.outcome False.elim hbody hw₀
      obtain ⟨ht₁, hid', _⟩ := ho.held ht hid hone
      have hshed := get?_shed ht₁ ho.leaves.spans hid' ho.leaves.replaces.sound
      refine ⟨(t₁.shed body).countBody id task, ?_, hhalt.winding (winds_countBody hshed)⟩
      rw [runBodies_of_ended ht hone hr, endBody_of_last hshed (.inr hhalt.over)]

/-- What a task runs below it halts at a vanish if it does so with less fuel. -/
theorem HaltsAt.kind (h : HaltsAt p fuel) (hs : Starts False p (.task id) X t)
    (ht : t.tasks.get? id = some task) (hf : task.isFinished = false)
    (hreach : task.kind.reach ≤ fuel) (hin : ∀ k ∈ task.children, t.tasks.Within fuel k)
    (hw : (state (runKind p (runTask p fuel) id task (t.start id))).tasks.NoWrap)
    (hl : logKind p (runTask p fuel) (logTask p fuel) id task (t.start id) = inner ++ c :: outer)
    (hc : c.Vanishes) :
    ∃ t', runKind p (runTask p fuel) id task (t.start id) = .ok .ended t' ∧
      Halts p inner c outer t' := by
  have hstart := persists_start id hs.tasks
  have sequence (hw : (state (runSequence (runTask p fuel) task.children .ended
        (t.start id))).tasks.NoWrap)
      (hl : logSequence (runTask p fuel) (logTask p fuel) task.children (t.start id) =
        inner ++ c :: outer) :
      ∃ t', runSequence (runTask p fuel) task.children .ended (t.start id) = .ok .ended t' ∧
        Halts p inner c outer t' := by
    obtain ⟨Y, _, _, hkids⟩ := hs.children ht
    exact h.sequence hkids (fun k hk => hstart.within _ _ (hin k hk)) hw hl hc
  unfold logKind at hl
  unfold runKind at hw ⊢
  cases hk : task.kind with
  | action =>
    simp only [hk] at hl hw
    exact sequence hw hl
  | bullet =>
    simp only [hk] at hl hw
    exact sequence hw hl
  | «repeat» st =>
    obtain ⟨times, t₁, hm, hcount⟩ := counts_repeatTimes p id task st (t.start id)
    simp only [hk, runRepeat, bind_of_ok hm, hm] at hl hw ⊢
    obtain ⟨task', ht', hreach', hchildren⟩ := hcount.counted (get?_start ht) hk
    have hcounted := hstart.bind fun h => hcount.persists h (get?_start ht) hk
    have hw₁ := (evolves_runBodies p fuel st.room id _ hcounted.sound).grows.noWrap hw
    obtain ⟨_, hbodies⟩ := hs.bodies ht hf hk hcount st.room _ hw₁
    rw [hk] at hreach
    refine h.bodies hbodies (sized_bodies hcounted hw₁ ht hk _) hreach ?_ hw hl hc
    intro task'' ht'' k hk'
    rw [ht', Option.some.injEq] at ht''
    subst ht''
    exact hcounted.within _ _ (hin k (hchildren ▸ hk'))
  | fire st => simp [hk] at hl
  | changeDirection st => simp [hk] at hl
  | changeSpeed st => simp [hk] at hl
  | accel st => simp [hk] at hl
  | wait remaining => simp [hk] at hl
  | vanish => simp [hk] at hl

theorem runTask_of_ended (fuel : Nat) (ht : t.tasks.get? id = some task)
    (hf : task.isFinished = false)
    (hr : runKind p (runTask p fuel) id task (t.start id) = .ok .ended t') :
    runTask p (fuel + 1) id t = .ok .ended (t'.close id (.ok .ended)) := by
  have h := runTask_of_some fuel ht hf hr
  cases hx : runTask p (fuel + 1) id t with
  | error e t'' =>
    rw [hx] at h
    cases h.1
  | ok status t'' =>
    rw [hx] at h
    obtain ⟨ha, hs⟩ := h
    cases ha
    cases hs
    rfl

/-- A vanish that is executed is the last task that is run, and all tasks around it end. -/
theorem haltsAt (p : Pattern) (fuel : Nat) : HaltsAt p fuel := by
  induction fuel with
  | zero =>
    intro id t X inner c outer hs hin hw hl hc
    obtain ⟨task, ht, _⟩ := hs.live
    obtain ⟨m, hm, _⟩ := hin.of_live ht hw
    cases hm
  | succ fuel ih =>
    intro id t X inner c outer hs hin hw hl hc
    obtain ⟨task, ht, _⟩ := hs.live
    obtain ⟨m, hm, hreach, hchildren⟩ :=
      hin.of_live ht ((evolves_runTask p (fuel + 1) id hs.tasks).grows.noWrap hw)
    cases hm
    have hlog := hl
    rw [logTask] at hl
    cases inner with
    | nil =>
      rw [List.nil_append, List.cons.injEq] at hl
      obtain ⟨rfl, hl⟩ := hl
      obtain ⟨task', ht', hf, hk⟩ := hc
      cases ht.symm.trans ht'
      have hr : runKind p (runTask p fuel) id task (t.start id) =
          .ok .ended { t.start id with bullet := (t.start id).bullet.vanish } := by
        unfold runKind
        rw [hk]
        rfl
      have hrun := runTask_of_ended fuel ht hf hr
      rw [logWithin_of_unfinished ht hf, logKind, hk] at hl
      have hsettles : t.tasks.Settles
          ({ t.start id with bullet := t.bullet.vanish }.close id (.ok .ended)).tasks :=
        Arena.Settles.trans (.of_modify fun task _ => .advance task _)
          (.of_modify fun task _ => .advance task _)
      refine ⟨_, hrun, hl.symm, ?_, ?_, ?_, ?_, fun pre d post h => by simp at h⟩
      · rw [hrun]
        rfl
      · rw [hrun]
        rfl
      · rw [hrun]
        exact hsettles
      · rw [hrun]
        exact .refl _
    | cons d inner =>
      rw [List.cons_append, List.cons.injEq] at hl
      obtain ⟨rfl, hl⟩ := hl
      cases hf : task.isFinished with
      | true =>
        rw [logWithin_of_finished ht hf] at hl
        simp at hl
      | false =>
        rw [logWithin_of_unfinished ht hf] at hl
        rw [(runTask_of_some (p := p) fuel ht hf rfl).2] at hw
        obtain ⟨t', hr, hhalt⟩ :=
          ih.kind hs ht hf hreach hchildren ((grows_close id _).noWrap hw) hl hc
        have hrun := runTask_of_ended fuel ht hf hr
        refine ⟨_, hrun, (hhalt.winding winds_close).within ⟨fuel + 1, hlog⟩ ?_⟩
        rw [hrun]
        rfl

section Roots

variable {kept roots : List TaskId}

/-- A vanish is the last task that is run for the roots of its bullet. -/
theorem halts_roots (hs : Poised False p (kept ++ roots) X t) (hb : t.tasks.Bounded)
    (hw : (runRoots p kept roots t).tasks.NoWrap)
    (hl : logRoots p kept roots t = inner ++ c :: outer) (hc : c.Vanishes) :
    Halts p inner c outer (runRoots p kept roots t) := by
  induction roots generalizing kept t X inner with
  | nil => simp [logRoots] at hl
  | cons root rest ih =>
    obtain ⟨Xr, _, _, _, hstart, _⟩ := hs.starts
    have here {rest'} (hw : (state (runTask p maxTaskChain root t)).tasks.NoWrap)
        (hl : logTask p maxTaskChain root t = inner ++ c :: rest') :=
      haltsAt p maxTaskChain root t Xr inner c rest' hstart (hb root hstart.ready) hw hl hc
    cases hr : runTask p maxTaskChain root t with
    | error e t₁ =>
      rw [runRoots_of_error hr] at hw
      rw [logRoots_of_error hr] at hl
      rw [hr] at here
      obtain ⟨_, hr', _⟩ := here ((Arena.grows_releaseAll _ _).noWrap hw) hl
      cases hr'
    | ok status t₁ =>
      have hrun := (logged_task p maxTaskChain root t).ran hr
      have hsound := (hrun.evolves hs.tasks).sound
      rw [hr] at here
      by_cases he : status = .ended
      · subst he
        rw [runRoots_of_ended hr] at hw ⊢
        rw [logRoots_of_ended hr] at hl
        cases hv : t₁.bullet.vanished with
        | true =>
          simp only [hv, if_true, List.append_nil] at hw hl ⊢
          obtain ⟨t', hr', hhalt⟩ := here (hsound.evolves_release.grows.noWrap hw) hl
          cases hr'
          exact hhalt.winding (winds_dismiss t₁ root (kept ++ rest))
        | false =>
          simp only [hv, Bool.false_eq_true, if_false] at hw hl ⊢
          have hdrop : (t₁.dismiss root (kept ++ rest)).tasks.Sound :=
            hsound.evolves_release.sound
          have hw₂ := (evolves_runRoots p kept rest hdrop).grows.noWrap hw
          have hw₁ := hsound.evolves_release.grows.noWrap hw₂
          rcases mem_or_split hl with ⟨rest', hhere, _⟩ | ⟨more, hthere, rfl⟩
          · obtain ⟨t', hr', hhalt⟩ := here hw₁ hhere
            cases hr'
            exact absurd hhalt.over (by rw [hv]; decide)
          · obtain ⟨Xr', Xs, N, shots, hleaves, hroot, hothers, hd, _⟩ := hs.ran hrun False.elim hw₁
            have hnext := (hs.after hleaves ⟨_, rfl⟩).poised
            rw [hleaves.keeps.tasks, hs.roots] at hnext
            have hbounded := (hrun.persists hs.tasks trivial hw₁).bounded hb
            have hhalt := ih (hnext.dismiss hroot hothers hd).poised
              (hsound.persists_release.bounded hbounded) hw hthere
            exact hhalt.after (nested_logTask p maxTaskChain root t)
      · rw [runRoots_of_stays hr he] at hw ⊢
        rw [logRoots_of_stays hr he] at hl
        have impossible {rest'} (hw : t₁.tasks.NoWrap)
            (hl : logTask p maxTaskChain root t = inner ++ c :: rest') : False := by
          obtain ⟨t', hr', _⟩ := here hw hl
          cases hr'
          exact he rfl
        cases hv : t₁.bullet.vanished with
        | true =>
          simp only [hv, if_true, List.append_nil] at hw hl
          exact (impossible hw hl).elim
        | false =>
          simp only [hv, Bool.false_eq_true, if_false] at hw hl ⊢
          have hw₁ := (evolves_runRoots p (kept ++ [root]) rest hsound).grows.noWrap hw
          rcases mem_or_split hl with ⟨rest', hhere, _⟩ | ⟨more, hthere, rfl⟩
          · exact (impossible hw₁ hhere).elim
          · obtain ⟨Xr', Xs, N, shots, hleaves, _⟩ := hs.ran hrun False.elim hw₁
            have hnext := (hs.after hleaves ⟨_, rfl⟩).poised
            rw [hleaves.keeps.tasks, hs.roots, List.append_cons] at hnext
            have hhalt := ih hnext ((hrun.persists hs.tasks trivial hw₁).bounded hb) hw hthere
            exact hhalt.after (nested_logTask p maxTaskChain root t)

end Roots

end Halts
end Turn
end Barrage

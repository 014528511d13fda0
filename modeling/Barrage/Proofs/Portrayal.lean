import Barrage.Proofs.Enacting

namespace Barrage.Turn

variable {p : Pattern} {fuel : Nat} {t t₁ t₂ : Turn} {σ σ₁ : Stage} {id : TaskId} {task : Task}
  {ids : List TaskId} {ws below : List WorkTree} {status : Status} {X Y Y' N : Finset TaskId}
  {shots : List Bullet} {run : TaskId → Run Status} {play : WorkTree → Play (Status × WorkTree)}

section Sequence

/-- Running a task goes as playing the tree that it shows. -/
def Portrays (p : Pattern) (fuel : Nat) : Prop :=
  ∀ id t X w σ, Starts False p (.task id) X t → t.tasks.Shows [id] [w] → σ.Depicts t →
    (state (runTask p fuel id t)).tasks.NoWrap →
    Performs (fun t x => t.tasks.Shows [id] [x.2]) t σ (runTask p fuel id t)
      (Play.tree p fuel w σ)

theorem Starts.ran (h : Starts False p (.task id) X t)
    (hw : (state (runTask p fuel id t)).tasks.NoWrap) :
    ∃ calls X' N shots, Outcome False p (.task id) X t calls (answer (runTask p fuel id t))
      (state (runTask p fuel id t)) X' N shots := by
  obtain ⟨calls, hr⟩ := runs_task p fuel id t
  obtain ⟨X', N, shots, ho⟩ := hr.outcome nofun h hw
  exact ⟨calls, X', N, shots, ho⟩

theorem Starts.ranAll (h : Starts False p (.sequence ids status) X t)
    (hw : (state (runSequence (runTask p fuel) ids status t)).tasks.NoWrap) :
    ∃ X' N shots, Leaves False (Succeeds (answer (runSequence (runTask p fuel) ids status t))) p t
      (state (runSequence (runTask p fuel) ids status t)) ids X X' N shots := by
  obtain ⟨calls, hr⟩ := runs_sequence (runs_task p fuel) ids status t
  obtain ⟨X', N, shots, ho⟩ := hr.outcome nofun h hw
  exact ⟨X', N, shots, ho.leaves⟩

/-- What follows the first task of a list goes on from where that has left off. -/
theorem Starts.next {w : WorkTree} {x : Play (Status × List WorkTree)} {answer : Status}
    {Xc Xs : Finset TaskId} (h : Starts False p (.task id) Xc t)
    (htail : ∀ status, Starts False p (.sequence ids status) Xs t) (hdis : Disjoint Xc Xs)
    (hr : runTask p fuel id t = .ok answer t₁) (hq : t₁.tasks.Shows [id] [w])
    (he : Enacts t σ t₁ σ₁)
    (hw : (state (runSequence (runTask p fuel) ids status t₁)).tasks.NoWrap)
    (ih : ∀ X, Starts False p (.sequence ids status) X t₁ →
      Performs (fun t x => t.tasks.Shows ids x.2) t₁ σ₁
        (runSequence (runTask p fuel) ids status t₁) (x σ₁)) :
    Performs (fun t x => t.tasks.Shows (id :: ids) x.2) t σ
      (runSequence (runTask p fuel) ids status t₁)
      ((do let (status, ws) ← x; pure (status, w :: ws)) σ₁) := by
  have hrun := evolves_runTask p fuel id h.tasks
  rw [hr] at hrun
  have hw₁ := (evolves_runSequence p fuel ids status hrun.sound).grows.noWrap hw
  have hlive : ∀ k ∈ Xs, t.tasks.contains k = true := fun k hk => (htail .ended).spans.contains hk
  obtain ⟨_, Xc', N, shots, ho⟩ := h.ran (by rw [hr]; exact hw₁)
  rw [hr] at ho
  have hl : Leaves False _ p t t₁ [id] Xc Xc' N shots := ho.leaves
  have hapart := Finset.disjoint_union_left.1 (hl.replaces.disjoint hlive hdis)
  have hrest : Starts False p (.sequence ids status) Xs t₁ :=
    ⟨(htail status).spans.apart hl.replaces hdis hw₁, hl.replaces.sound, hl.adds.sound,
      (htail status).fit.apart (htail status).spans hl.replaces hdis, trivial⟩
  obtain ⟨Xs', N', more, hl'⟩ := hrest.ranAll hw
  apply ((ih Xs hrest).prepend he hl.toFires hl'.adds hl'.replaces hapart.2.symm hw).map
  intro answer t' ws hr' hshow
  rw [hr'] at hl' hw
  exact (hq.apart hl.spans hl'.replaces hapart.1.symm hw).append hshow

/-- The tasks of a list run as the trees that they show play. -/
theorem Portrays.sequence (hp : Portrays p fuel) (h : Starts False p (.sequence ids status) X t)
    (hs : t.tasks.Shows ids ws) (hd : σ.Depicts t)
    (hw : (state (runSequence (runTask p fuel) ids status t)).tasks.NoWrap) :
    Performs (fun t x => t.tasks.Shows ids x.2) t σ
      (runSequence (runTask p fuel) ids status t)
      (Play.sequence (Play.tree p fuel) ws status σ) := by
  induction ids generalizing X t ws σ status with
  | nil =>
    cases hs
    exact .ok .nil (.refl hd)
  | cons id ids ih =>
    obtain ⟨Xc, Xs, rfl, hdis, hc, htail, hhead⟩ := h.of_cons
    cases hs with
    | dead hn hs =>
      have hf := Arena.isFinished_of_dead hn
      rw [runSequence_of_finished hf] at hw ⊢
      apply (ih (htail status) hs hd hw).imp
      intro answer t' a hr hq
      obtain ⟨_, _, _, hl⟩ := (htail status).ranAll hw
      rw [hr] at hl hw
      exact .dead (((hc.of_dead hn).2.grows hl.replaces.grows).get? hw) hq
    | @live _ _ task below ws ht hbelow hs =>
      have hshow := Arena.Shows.single ht hbelow
      cases hf : t.tasks.isFinished id with
      | true =>
        rw [runSequence_of_finished hf] at hw ⊢
        rw [Play.sequence_of_finished (Arena.isFinished_shown ht hf)]
        apply (ih (htail status) hs hd hw).map
        intro answer t' a hr hq
        obtain ⟨_, _, _, hl⟩ := (htail status).ranAll hw
        rw [hr] at hl hw
        exact (hshow.apart hc hl.replaces hdis.symm hw).append hq
      | false =>
        have hstart := hhead hf
        -- The other tasks are left alone by the one that runs.
        have hrest {answer : Status} {t₁ : Turn} (hr : runTask p fuel id t = .ok answer t₁)
            (hw₁ : t₁.tasks.NoWrap) : t₁.tasks.Shows ids ws := by
          obtain ⟨_, _, _, _, ho⟩ := hstart.ran (by rw [hr]; exact hw₁)
          rw [hr] at ho
          exact hs.apart (htail status).spans ho.leaves.replaces hdis hw₁
        have hperf (hw₁ : (state (runTask p fuel id t)).tasks.NoWrap) :=
          hp id t Xc _ σ hstart hshow hd hw₁
        generalize hpl : Play.tree p fuel _ σ = played at hperf
        cases hr : runTask p fuel id t with
        | error e t' =>
          rw [runSequence_of_error hf hr] at hw ⊢
          rw [hr] at hperf
          cases hperf hw with
          | error he =>
            rw [Play.sequence_of_error (Arena.isFinished_shown ht hf) hpl]
            exact .error he
        | ok answer t₁ =>
          rw [hr] at hperf
          by_cases ha : answer = .paused
          · subst ha
            rw [runSequence_of_paused hf hr] at hw ⊢
            cases hperf hw with
            | ok hq he =>
              rw [Play.sequence_of_paused (Arena.isFinished_shown ht hf) hpl]
              exact .ok (hq.append (hrest hr hw)) he
          · cases hv : t₁.bullet.vanished with
            | true =>
              rw [runSequence_of_vanished hf hr ha hv] at hw ⊢
              cases hperf hw with
              | ok hq he =>
                have hv' := (congrArg Motion.vanished he.depicts.motion).trans hv
                rw [Play.sequence_of_vanished (Arena.isFinished_shown ht hf) hpl ha hv']
                exact .ok (hq.append (hrest hr hw)) he
            | false =>
              rw [runSequence_of_next hf hr ha hv] at hw ⊢
              have hrun := evolves_runTask p fuel id h.tasks
              rw [hr] at hrun
              have hw₁ := (evolves_runSequence p fuel ids _ hrun.sound).grows.noWrap hw
              cases hperf hw₁ with
              | ok hq he =>
                have hv' := (congrArg Motion.vanished he.depicts.motion).trans hv
                rw [Play.sequence_of_next (Arena.isFinished_shown ht hf) hpl ha hv']
                exact hstart.next htail hdis hr hq he hw fun X hX =>
                  ih hX (hrest hr hw₁) he.depicts hw

end Sequence

section Bodies

variable {room left : Nat} {body fresh : TaskId} {st : RepeatState} {b : Bullet}

/-- A body is bound as it is expanded, or it cannot be. -/
inductive Renews (id : TaskId) (t : Turn) (σ : Stage) :
    EStateM.Result PatternError Turn TaskId →
      EStateM.Result PatternError Stage TaskTree → Prop where
  | ok {fresh : TaskId} {tree : TaskTree} {t' : Turn} {W : Finset TaskId}
      (hr : t.tasks.Replaces t'.tasks ∅ W) (hh : t'.tasks.Holds (some id) [fresh] [tree] W)
      (hb : t'.bullet = t.bullet) (hp : t'.pool = t.pool) :
      Renews id t σ (.ok fresh t') (.ok tree { σ with context := t'.context })
  | error {e : PatternError} {t' : Turn} (hr : t.tasks.Replaces t'.tasks ∅ ∅)
      (hb : t'.bullet = t.bullet) (hp : t'.pool = t.pool) :
      Renews id t σ (.error e t') (.error e { σ with context := t'.context })

theorem renews_rebind (p : Pattern) (room : Nat) (id : TaskId) (task : Task) (b : Bullet)
    (hs : t.tasks.Sound) (hc : σ.context = t.context) :
    Renews id t σ (rebind p room id task b t)
      (Play.expandFor p b.motion
        (fun b => b.expandBody (b.expandNode room) task.node task.params) σ) := by
  have h := (Binder.follows_node ⟨p, t.context.rank, b⟩ room).body (b := ⟨p, t.context.rank, b⟩)
    (s := ⟨t.tasks, t.context.random⟩) hs task.node id task.params
  rw [Binder.expandNode_motion] at h
  generalize hm : Binder.bindBody _ _ _ _ _ _ = rm at h
  generalize hx : Binder.expandBody _ _ _ _ _ = rx at h
  cases h with
  | ok hr hh =>
    have hb : rebind p room id task b t = _ := bindFor_of_ok hm
    rw [hb, Play.expandFor_of_ok (by rw [hc]; exact hx), hc]
    exact .ok hr hh rfl rfl
  | error hr =>
    have hb : rebind p room id task b t = _ := bindFor_of_error hm
    rw [hb, Play.expandFor_of_error (by rw [hc]; exact hx), hc]
    exact .error hr rfl rfl

/-- The `repeat` has let so many bodies end and shows these children now that it has answered, and
is otherwise what it was. -/
def Tallied (id : TaskId) (task : Task) (st : RepeatState) (t : Turn)
    (x : Status × UInt32 × List WorkTree) : Prop :=
  ∃ children, t.tasks.get? id = some { task with
      kind := .repeat { st with done := x.2.1 }
      children
      phase := if x.1 == .ended then task.phase.later .finished else task.phase } ∧
    t.tasks.Shows children x.2.2

theorem countBody_of_repeat (hk : task.kind = .repeat st) :
    task.countBody =
      { task with children := [], kind := .repeat { st with done := st.done + 1 } } := by
  rw [Task.countBody, hk]

/-- No body is left to run, and the one that was bound is let go. -/
theorem performs_spent (h : Starts False p (.bodies room id 0) X t)
    (ht : t.tasks.get? id = some task) (hk : task.kind = .repeat st) (hd : σ.Depicts t) :
    Performs (Tallied id task st) t σ (closed id (runBodies p run room id 0 t))
      (Play.bodies p task.node task.params play room 0 st.done ws σ) := by
  obtain ⟨body, Y, hc, rfl, hid, hbody, _⟩ := h.held ht
  rw [runBodies_of_spent ht hc]
  have hget := get?_shed ht hbody.spans hid h.tasks
  have hne : body ≠ id := by
    rintro rfl
    exact hid (hbody.spans.mem_of_live (List.mem_singleton_self _) hbody.ready)
  refine .ok ⟨[body], ?_, .dead ?_ .nil⟩ (.quiet (pool_close _) (depicts_close ?_ _) rfl)
  · rw [get?_close hget]
    obtain ⟨node, owner, children, params, kind, phase⟩ := task
    cases hk
    cases hc
    rfl
  · rw [get?_close_of_ne hne]
    exact (hbody.spans.release_root h.tasks).1
  · exact ⟨hd.motion, hd.context, hd.room⟩

theorem Starts.ranBodies (h : Starts False p (.bodies room id left) X t)
    (hw : (state (closed id (runBodies p (runTask p fuel) room id left t))).tasks.NoWrap) :
    ∃ X' N shots, Fires t (state (closed id (runBodies p (runTask p fuel) room id left t))) X X' N
      shots := by
  obtain ⟨calls, hr⟩ := runs_bodies (runs_task p fuel) room id left t
  rw [state_closed] at hw ⊢
  obtain ⟨X', N, shots, ho⟩ := hr.outcome nofun h hw
  exact ⟨X', N, shots, ho.leaves.toFires⟩

theorem noWrap_endBody (hs : t.tasks.Sound)
    (hw : (state (closed id (endBody p (runTask p fuel) room id body left t))).tasks.NoWrap) :
    t.tasks.NoWrap :=
  (hs.evolves_release.trans (evolves_endBody p fuel room id body left hs)).grows.noWrap
    (noWrap_closed hw)

/-- The `repeat` whose body has run and ended, which is about to be let go. -/
theorem Starts.endedBody (h : Starts False p (.bodies room id left) X t)
    (ht : t.tasks.get? id = some task) (hc : task.children = [body])
    (hr : runTask p fuel body t = .ok .ended t₁) (hw : t₁.tasks.NoWrap) :
    ∃ calls Y Y' N shots, X = {id} ∪ Y ∧ id ∉ Y ∧ id ∉ Y' ∧
      Outcome False p (.task body) Y t calls (.ok .ended) t₁ Y' N shots ∧
      t₁.tasks.get? id = some task ∧ Fires t t₁ ({id} ∪ Y) ({id} ∪ Y') N shots := by
  obtain ⟨c, Y, hone, hX, hid, hbody, _⟩ := h.held ht
  cases hone.symm.trans hc
  obtain ⟨calls, Y', N, shots, ho⟩ := hbody.ran (by rw [hr]; exact hw)
  rw [hr] at ho
  obtain ⟨ht₁, hid', hunder⟩ := ho.held ht hid hc
  exact ⟨calls, Y, Y', N, shots, hX, hid, hid', ho, ht₁, hunder.toFires⟩

/-- The last body has ended. -/
theorem performs_last {w w' : WorkTree} (h : Starts False p (.bodies room id (left + 1)) X t)
    (ht : t.tasks.get? id = some task) (hk : task.kind = .repeat st)
    (hc : task.children = [body]) (hr : runTask p fuel body t = .ok .ended t₁)
    (hpl : Play.tree p fuel w σ = .ok (.ended, w') σ₁) (he : Enacts t σ t₁ σ₁)
    (hl : left = 0 ∨ t₁.bullet.vanished = true)
    (hw : (state (closed id (endBody p (runTask p fuel) room id body left t₁))).tasks.NoWrap) :
    Performs (Tallied id task st) t σ (closed id (endBody p (runTask p fuel) room id body left t₁))
      (Play.bodies p task.node task.params (Play.tree p fuel) room (left + 1) st.done [w] σ) := by
  have hrun := evolves_runTask p fuel body h.tasks
  rw [hr] at hrun
  obtain ⟨_, Y, Y', N, shots, rfl, hid, hid', ho, ht₁, hf⟩ :=
    h.endedBody ht hc hr (noWrap_endBody hrun.sound hw)
  have hspans : t₁.tasks.Spans [body] Y' := ho.leaves.spans
  rw [endBody_of_last (get?_shed ht₁ hspans hid' hrun.sound) hl] at hw ⊢
  have hlast : Leaves False True p t₁ _ [id] ({id} ∪ Y') {id} ∅ [] :=
    leaves_last ht₁ hspans hid' hrun.sound hf.adds.sound hw
  have hreplaces := hlast.replaces
  rw [Finset.union_empty] at hreplaces
  have hstop : left = 0 ∨ σ₁.motion.vanished = true := by
    rw [he.depicts.motion]
    exact hl
  rw [Play.bodies_of_last hpl hstop]
  apply Performs.ok
  · refine ⟨[], ?_, .nil⟩
    rw [get?_close (get?_countBody ht₁ hspans hid' hrun.sound), countBody_of_repeat hk]
  · have hd : σ₁.Depicts ((t₁.shed body).countBody id task) :=
      ⟨he.depicts.motion, he.depicts.context, he.depicts.room⟩
    exact he.settle hf hreplaces (pool_close _) (depicts_close hd _) rfl hw

/-- Running the bodies that a `repeat` has left goes as playing the one that it shows and those that
follow. -/
def PortraysBodies (p : Pattern) (fuel room : Nat) (id : TaskId) (left : Nat) : Prop :=
  ∀ t X task st w σ, Starts False p (.bodies room id left) X t →
    t.tasks.get? id = some task → task.kind = .repeat st → t.tasks.Shows task.children [w] →
    σ.Depicts t →
    (state (closed id (runBodies p (runTask p fuel) room id left t))).tasks.NoWrap →
    Performs (Tallied id task st) t σ (closed id (runBodies p (runTask p fuel) room id left t))
      (Play.bodies p task.node task.params (Play.tree p fuel) room left st.done [w] σ)

/-- The next body was bound. -/
theorem performs_again {calls : List Call} {tree : TaskTree} {W : Finset TaskId}
    (h : Starts False p (.bodies room id (left + 1)) ({id} ∪ Y) t)
    (ht : t.tasks.get? id = some task) (hk : task.kind = .repeat st)
    (hc : task.children = [body]) (hid : id ∉ Y)
    (ho : Outcome False p (.task body) Y t calls (.ok .ended) t₁ Y' N shots)
    (hb : rebind p room id task t₁.bullet ((t₁.shed body).countBody id task) = .ok fresh t₂)
    (he : Enacts t σ t₁ σ₁)
    (hrep : ((t₁.shed body).countBody id task).tasks.Replaces t₂.tasks ∅ W)
    (hh : t₂.tasks.Holds (some id) [fresh] [tree] W) (hbullet : t₂.bullet = t₁.bullet)
    (hpool : t₂.pool = t₁.pool) (ih : PortraysBodies p fuel room id left)
    (hw : (state (closed id (runBodies p (runTask p fuel) room id left
      (t₂.adopt id fresh)))).tasks.NoWrap) :
    Performs (Tallied id task st) t σ
      (closed id (runBodies p (runTask p fuel) room id left (t₂.adopt id fresh)))
      (Play.bodies p task.node task.params (Play.tree p fuel) room left (st.done + 1) [tree.fresh]
        { σ₁ with context := t₂.context }) := by
  obtain ⟨_, _, _, _, _, _, hfin, hrepeat, hbound⟩ := h.held ht
  obtain ⟨ht₁, hid', hunder⟩ := ho.held ht hid hc
  have hspans : t₁.tasks.Spans [body] Y' := ho.leaves.spans
  have hsound := hunder.replaces.sound
  have hshed := get?_shed ht₁ hspans hid' hsound
  have hlive := Arena.contains_of_get? (get?_countBody ht₁ hspans hid' hsound)
  have hadopted : (t₂.adopt id fresh).tasks.Sound := hrep.sound.modify
  have hw' := (evolves_runBodies p fuel room id left hadopted).grows.noWrap (noWrap_closed hw)
  obtain ⟨V, hall, hnext⟩ := h.again nofun ho rfl hid ht hc hfin hrepeat hbound hshed hb hw'
  obtain ⟨_, hagain, hget⟩ : ∃ W, Leaves False True p t₁ (t₂.adopt id fresh) [id] ({id} ∪ Y')
      ({id} ∪ W) ∅ [] ∧ _ :=
    leaves_again ht₁ hspans hid' hsound hunder.adds.sound nofun hbound hrepeat hb hw'
  have hreplaces := hagain.replaces
  rw [Finset.union_empty] at hreplaces
  have hd : ({ σ₁ with context := t₂.context } : Stage).Depicts (t₂.adopt id fresh) := by
    obtain ⟨hmotion, hcontext, hroom⟩ := he.depicts.rebound hbullet hpool
    exact ⟨hmotion, hcontext, hroom⟩
  have hshows : (t₂.adopt id fresh).tasks.Shows [fresh] [tree.fresh] := by
    -- The tasks of the new body are none that were live, so the `repeat` is not among them.
    have hidW : id ∉ W := hrep.notMem hlive (Finset.notMem_empty id)
    apply hh.shows.beside hh.spans hidW (hrep.keeps hlive (Finset.notMem_empty id))
    intro k hk
    exact (Arena.get?_modify ..).trans (if_neg hk)
  have hkind : (task.countBody.adopt fresh).kind = .repeat { st with done := st.done + 1 } := by
    rw [countBody_of_repeat hk]
    rfl
  have hperf := ih _ V _ _ tree.fresh _ hnext hget hkind hshows hd hw
  obtain ⟨_, _, _, hrest⟩ := hnext.ranBodies hw
  have hall' := hperf.prepend (he.settle hunder.toFires hreplaces hpool hd rfl hw') hall.toFires
    hrest.adds hrest.replaces hall.apart hw
  rw [countBody_of_repeat hk] at hall'
  exact hall'

/-- The next body is due. -/
theorem performs_due {w w' : WorkTree} (h : Starts False p (.bodies room id (left + 1)) X t)
    (ht : t.tasks.get? id = some task) (hk : task.kind = .repeat st)
    (hc : task.children = [body]) (hr : runTask p fuel body t = .ok .ended t₁)
    (hpl : Play.tree p fuel w σ = .ok (.ended, w') σ₁) (he : Enacts t σ t₁ σ₁)
    (hl : ¬(left = 0 ∨ t₁.bullet.vanished = true)) (ih : PortraysBodies p fuel room id left)
    (hw : (state (closed id (endBody p (runTask p fuel) room id body left t₁))).tasks.NoWrap) :
    Performs (Tallied id task st) t σ (closed id (endBody p (runTask p fuel) room id body left t₁))
      (Play.bodies p task.node task.params (Play.tree p fuel) room (left + 1) st.done [w] σ) := by
  have hrun := evolves_runTask p fuel body h.tasks
  rw [hr] at hrun
  obtain ⟨_, Y, Y', N, shots, rfl, hid, hid', ho, ht₁, hf⟩ :=
    h.endedBody ht hc hr (noWrap_endBody hrun.sound hw)
  have hspans : t₁.tasks.Spans [body] Y' := ho.leaves.spans
  have hshed := get?_shed ht₁ hspans hid' hrun.sound
  have hcount := get?_countBody ht₁ hspans hid' hrun.sound
  have hgo : ¬(left = 0 ∨ σ₁.motion.vanished = true) := by
    rw [he.depicts.motion]
    exact hl
  have hsound : ((t₁.shed body).countBody id task).tasks.Sound :=
    (evolves_countBody body id task hrun.sound).sound
  have hrenews := renews_rebind p room id task t₁.bullet hsound he.depicts.context
  rw [← he.depicts.motion] at hrenews
  rw [endBody_of_due hshed hl] at hw ⊢
  rw [Play.bodies_of_due hpl hgo]
  obtain ⟨_, _, hone, hX, hidY, _, hfin, hrep, hbound⟩ := h.held ht
  generalize hx : Play.expandFor p σ₁.motion _ σ₁ = x at hrenews ⊢
  generalize hb : rebind p room id task t₁.bullet ((t₁.shed body).countBody id task) = bound
    at hrenews hw ⊢
  cases hrenews with
  | error _ hbullet hpool =>
    have hl := (leaves_unbound ht₁ hspans hid' hrun.sound hf.adds.sound nofun hbound hrep hb hw).1
    have hreplaces := hl.replaces
    rw [Finset.union_empty] at hreplaces
    exact .error (he.settle hf hreplaces hpool (he.depicts.rebound hbullet hpool) rfl hw)
  | ok hrep' hh hbullet hpool =>
    exact performs_again h ht hk hc hid ho hb he hrep' hh hbullet hpool ih hw

/-- The bodies of a `repeat` run as the trees that they show play. -/
theorem Portrays.bodies (hp : Portrays p fuel) (room : Nat) (id : TaskId) (left : Nat) :
    PortraysBodies p fuel room id left := by
  induction left with
  | zero =>
    intro t X task st w σ h ht hk _ hd _
    exact performs_spent h ht hk hd
  | succ left ih =>
    intro t X task st w σ h ht hk hs hd hw
    obtain ⟨body, Y, hc, rfl, hid, hbody, _⟩ := h.held ht
    rw [hc] at hs
    have hperf (hw₁ : (state (runTask p fuel body t)).tasks.NoWrap) :=
      hp body t Y w σ hbody hs hd hw₁
    generalize hpl : Play.tree p fuel w σ = played at hperf
    cases hr : runTask p fuel body t with
    | error e t₁ =>
      rw [runBodies_of_error ht hc hr] at hw ⊢
      rw [hr] at hperf
      cases hperf hw with
      | error he =>
        rw [Play.bodies_of_error hpl]
        exact .error he
    | ok answer t₁ =>
      rw [hr] at hperf
      by_cases ha : answer = .ended
      · subst ha
        have hrun := evolves_runTask p fuel body h.tasks
        rw [hr] at hrun
        rw [runBodies_of_ended ht hc hr] at hw ⊢
        cases hperf (noWrap_endBody hrun.sound hw) with
        | ok hq he =>
          by_cases hl : left = 0 ∨ t₁.bullet.vanished = true
          · exact performs_last h ht hk hc hr hpl he hl hw
          · exact performs_due h ht hk hc hr hpl he hl ih hw
      · rw [runBodies_of_hold ht hc hr ha] at hw ⊢
        have hne : (.ok answer : Except PatternError Status) ≠ .ok .ended := by simpa using ha
        rw [closed, close_of_ne hne] at hw ⊢
        cases hperf hw with
        | ok hq he =>
          rw [Play.bodies_of_hold hpl ha]
          obtain ⟨_, Y', N, shots, ho⟩ := hbody.ran (by rw [hr]; exact hw)
          rw [hr] at ho
          have ht₁ : t₁.tasks.get? id = some task := (ho.held ht hid hc).1
          refine .ok ⟨[body], ?_, hq⟩ he
          rw [ht₁]
          obtain ⟨node, owner, children, params, kind, phase⟩ := task
          cases hk
          cases hc
          simp [ha]

end Bodies

section Kind

variable {st : RepeatState} {times : UInt32}

/-- How often a `repeat` plays is found as it is when it runs. -/
theorem times_of_repeatTimes (hd : σ.Depicts t) (h : repeatTimes p id task st t = .ok times t₁) :
    Play.times p task.node task.params st σ = .ok times { σ with context := t₁.context } := by
  obtain ⟨motion, context, room, cast⟩ := σ
  obtain ⟨rfl, rfl, _⟩ := hd
  have found (n : UInt32) (c : Context) (h : (do
      let times := if maxRepeat < n then maxRepeat else n
      if maxRepeat < n then notify (.repeatClamped p.name task.node n maxRepeat)
      setKind id (.repeat { st with times := some times })
      pure times : Run UInt32) { t with context := c } = .ok times t₁) :
      (if maxRepeat < n then maxRepeat else n) = times ∧ c = t₁.context := by
    by_cases hn : maxRepeat < n
    · simp only [hn, if_true] at h ⊢
      cases h
      exact ⟨rfl, rfl⟩
    · simp only [hn, if_false] at h ⊢
      cases h
      exact ⟨rfl, rfl⟩
  unfold repeatTimes at h
  unfold Play.times
  cases hs : st.times with
  | some n =>
    rw [hs] at h
    cases h
    rfl
  | none =>
    rw [hs] at h
    cases hc : p.child? task.node .times with
    | none =>
      rw [hc] at h
      obtain ⟨rfl, hcontext⟩ := found 0 t.context h
      rw [← hcontext]
      rfl
    | some node =>
      rw [hc] at h
      obtain ⟨rfl, hcontext⟩ := found _ _ h
      rw [← hcontext]
      rfl

theorem Counts.get? (h : Counts p id task st t times t₁) {task' : Task}
    (ht : t.tasks.get? id = some task') (hk : task'.kind = .repeat st) :
    t₁.tasks.get? id = some { task' with kind := .repeat { st with times := some times } } := by
  cases h with
  | known hs =>
    rw [ht, ← hs, ← hk]
  | finds =>
    rw [Arena.get?_modify, if_pos rfl, ht]
    rfl

theorem Counts.get?_of_ne (h : Counts p id task st t times t₁) {k : TaskId} (hk : k ≠ id) :
    t₁.tasks.get? k = t.tasks.get? k := by
  cases h with
  | known => rfl
  | finds => rw [Arena.get?_modify, if_neg hk]

theorem Counts.bullet (h : Counts p id task st t times t₁) : t₁.bullet = t.bullet := by
  cases h <;> rfl

theorem Counts.pool (h : Counts p id task st t times t₁) : t₁.pool = t.pool := by
  cases h <;> rfl

/-- A `repeat` goes the same way on both sides. -/
theorem performs_repeat (hp : Portrays p fuel) (h : Starts False p (.task id) X t)
    (ht : t.tasks.get? id = some task) (hf : task.isFinished = false)
    (hk : task.kind = .repeat st) (hs : t.tasks.Shows task.children below) (hd : σ.Depicts t)
    (hw : (state (closed id (runKind p (runTask p fuel) id task (t.start id)))).tasks.NoWrap) :
    Performs (Became id task) t σ (closed id (runKind p (runTask p fuel) id task (t.start id)))
      (Play.kind p (Play.tree p fuel) task.node task.params below (.repeat st) σ) := by
  obtain ⟨Y, hY, hid, rfl⟩ := h.spans.of_live ht
  obtain ⟨times, t₁, hm, hcounts⟩ := counts_repeatTimes p id task st (t.start id)
  have hrun : runKind p (runTask p fuel) id task (t.start id) =
      runBodies p (runTask p fuel) st.room id (times.toNat - st.done.toNat) t₁ := by
    rw [runKind, hk]
    exact bind_of_ok hm
  rw [hrun] at hw ⊢
  have hd₀ : σ.Depicts (t.start id) := ⟨hd.motion, hd.context, hd.room⟩
  have hplay := times_of_repeatTimes hd₀ hm
  have hd₁ : ({ σ with context := t₁.context } : Stage).Depicts t₁ :=
    hd₀.rebound hcounts.bullet hcounts.pool
  have hcount := (evolves_start id h.tasks).bind hcounts.evolves
  have hbodies := evolves_runBodies p fuel st.room id (times.toNat - st.done.toNat) hcount.sound
  have hw₁ := hbodies.grows.noWrap (noWrap_closed hw)
  obtain ⟨hl, hstarts⟩ := h.bodies ht hf hk hcounts st.room (times.toNat - st.done.toNat) hw₁
  have hget := hcounts.get? (get?_start ht) hk
  have hshows : t₁.tasks.Shows task.children below := by
    apply hs.beside hY hid (Arena.contains_of_get? ht)
    intro k hk
    rw [hcounts.get?_of_ne hk, get?_start_of_ne hk]
  obtain ⟨body, _, hone, _, _, hbody, _⟩ := hstarts.held hget
  obtain ⟨child, hchild⟩ := Arena.contains_iff.1 hbody.ready
  have hsingle : t₁.tasks.Shows [body] below := hone ▸ hshows
  obtain ⟨_, rest, rfl, _, hrest⟩ := hsingle.of_live hchild
  cases hrest
  have hperf := hp.bodies st.room id _ t₁ _ _ _ _ _ hstarts hget rfl hshows hd₁ hw
  change Performs _ _ _ _ (Play.bodies p task.node task.params _ _ _ st.done _ _) at hperf
  rw [Play.kind, bind_of_ok hplay]
  generalize hx : Play.bodies p task.node task.params _ _ _ _ _ _ = x at hperf
  generalize runBodies p _ _ _ _ t₁ = r at hperf ⊢
  generalize closed id r = r' at hperf ⊢
  cases hperf with
  | error he =>
    rw [bind_of_error hx]
    exact .error (he.after hcounts.pool rfl)
  | @ok status a t' σ' hq he =>
    obtain ⟨children, hget', hshows'⟩ := hq
    rw [bind_of_ok hx]
    refine .ok ⟨children, ?_, hshows'⟩ (he.after hcounts.pool rfl)
    rw [hget']
    cases status with
    | ended => rfl
    | ongoing => rfl
    | paused => rfl

/-- The children of an action or a bullet run as the trees that they show play. -/
theorem performs_composite (hp : Portrays p fuel) (h : Starts False p (.task id) X t)
    (ht : t.tasks.get? id = some task) (hk : task.kind = .action ∨ task.kind = .bullet)
    (hs : t.tasks.Shows task.children below) (hd : σ.Depicts t)
    (hw : (state (closed id (runKind p (runTask p fuel) id task (t.start id)))).tasks.NoWrap) :
    Performs (Became id task) t σ (closed id (runKind p (runTask p fuel) id task (t.start id)))
      (Play.kind p (Play.tree p fuel) task.node task.params below task.kind σ) := by
  obtain ⟨Y, hY, hid, rfl⟩ := h.spans.of_live ht
  have hl₀ : Leaves False True p t (t.start id) [id] ({id} ∪ Y) ({id} ∪ Y) ∅ [] := h.leaves_start
  have hkids : Starts False p (.sequence task.children .ended) Y (t.start id) :=
    ⟨hY.modify fun _ => rfl, hl₀.replaces.sound, hl₀.adds.sound,
      (hl₀.fit trivial h.fit).mono Finset.subset_union_right, trivial⟩
  have hshow : (t.start id).tasks.Shows task.children below :=
    hs.beside hY hid (Arena.contains_of_get? ht) fun k hk => get?_start_of_ne hk
  have hrun : runKind p (runTask p fuel) id task =
      runSequence (runTask p fuel) task.children .ended := by
    rcases hk with hk | hk <;> rw [runKind, hk]
  have hplay : Play.kind p (Play.tree p fuel) task.node task.params below task.kind = (do
      let (status, children) ← Play.sequence (Play.tree p fuel) below .ended
      pure (status, task.kind, children)) := by
    rcases hk with hk | hk <;> rw [hk] <;> rfl
  rw [hrun] at hw ⊢
  rw [hplay]
  have hw₁ := noWrap_closed hw
  have hperf := hp.sequence hkids hshow ⟨hd.motion, hd.context, hd.room⟩ hw₁
  obtain ⟨Y', N, shots, hl⟩ := hkids.ranAll hw₁
  have hlive := Arena.contains_of_get? (get?_start ht)
  have hget := hl.replaces.kept id hlive hid
  rw [get?_start ht] at hget
  have hid' := Finset.notMem_union.1 (hl.replaces.notMem hlive hid)
  generalize runSequence (runTask p fuel) task.children .ended (t.start id) = r at *
  generalize hx : Play.sequence (Play.tree p fuel) below .ended σ = x at hperf
  cases hperf with
  | error he =>
    rw [bind_of_error hx]
    exact .error (he.after rfl rfl)
  | ok hq he =>
    rw [bind_of_ok hx]
    have hclosed := he.trans (.quiet (pool_close _) (depicts_close he.depicts _) rfl) hl.toFires
      (by rw [pool_close]; exact .refl hl.adds.sound) (replaces_close hl.replaces.sound _)
      (Finset.disjoint_singleton_left.2 hid'.2) hw
    exact .ok (became_close hget hl.spans hid'.1 hq) (hclosed.after rfl rfl)

/-- One frame of an unfinished task goes as that of the tree that it shows. -/
theorem performs_kind (hp : Portrays p fuel) (h : Starts False p (.task id) X t)
    (ht : t.tasks.get? id = some task) (hf : task.isFinished = false)
    (hw : t.tasks.Shows task.children below) (hd : σ.Depicts t)
    (hnw : (state (closed id (runKind p (runTask p fuel) id task (t.start id)))).tasks.NoWrap) :
    Performs (Became id task) t σ (closed id (runKind p (runTask p fuel) id task (t.start id)))
      (Play.kind p (Play.tree p fuel) task.node task.params below task.kind σ) := by
  obtain ⟨Y, hY, hid, rfl⟩ := h.spans.of_live ht
  cases hk : task.kind with
  | action => rw [← hk]; exact performs_composite hp h ht (.inl hk) hw hd hnw
  | bullet => rw [← hk]; exact performs_composite hp h ht (.inr hk) hw hd hnw
  | «repeat» st => exact performs_repeat hp h ht hf hk hw hd hnw
  | fire fire => rw [← hk]; exact performs_fire h ht hf hk hw hd hnw
  | changeDirection change => rw [← hk]; exact performs_changeDirection ht hY hid hw hd hk
  | changeSpeed change => rw [← hk]; exact performs_changeSpeed ht hY hid hw hd hk
  | accel accel => rw [← hk]; exact performs_accel ht hY hid hw hd hk
  | wait remaining => rw [← hk]; exact performs_wait ht hY hid hw hd hk
  | vanish => rw [← hk]; exact performs_vanish ht hY hid hw hd hk

/-- A task runs as the tree that it shows plays. -/
theorem portrays (p : Pattern) (fuel : Nat) : Portrays p fuel := by
  induction fuel with
  | zero =>
    intro id t X w σ h hs hd hw
    exact .error (.refl hd)
  | succ fuel ih =>
    intro id t X w σ h hs hd hw
    obtain ⟨task, ht, _⟩ := h.live
    obtain ⟨below, rest, hshown, hbelow, _⟩ := hs.of_live ht
    cases hshown
    cases hf : task.isFinished with
    | true =>
      have hrun : runTask p (fuel + 1) id t = .ok .ended t := by
        rw [runTask, bind_of_ok (task_of_some ht)]
        simp only [hf, if_true]
        rfl
      have hplay : (task.phase == .finished) = true := hf
      rw [hrun, Play.tree, if_pos hplay]
      exact .ok (.single ht hbelow) (.refl hd)
    | false =>
      have hplay : ¬(task.phase == .finished) = true := by
        rw [show (task.phase == .finished) = false from hf]
        exact Bool.false_ne_true
      rw [runTask_of_unfinished fuel ht hf] at hw ⊢
      rw [Play.tree, if_neg hplay]
      have hperf := performs_kind ih h ht hf hbelow hd hw
      generalize hx : Play.kind p (Play.tree p fuel) _ _ _ _ σ = x at hperf
      generalize closed id _ = r at hperf ⊢
      cases hperf with
      | error he =>
        rw [bind_of_error hx]
        exact .error he
      | ok hq he =>
        obtain ⟨children, hget, hshows⟩ := hq
        rw [bind_of_ok hx]
        exact .ok (.single hget hshows) he

end Kind

end Barrage.Turn

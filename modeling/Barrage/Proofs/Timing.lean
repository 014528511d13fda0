import Barrage.Proofs.Removal
import Barrage.Proofs.Schedule

namespace Barrage

namespace TaskTree

mutual

/-- No task of the tree has run. -/
def Unrun : TaskTree → Prop
  | .node _ _ kind below => kind.shape = kind ∧ UnrunAll below

def UnrunAll : List TaskTree → Prop
  | [] => True
  | tree :: trees => tree.Unrun ∧ UnrunAll trees

end

theorem unrunAll_append {trees more : List TaskTree} (h : UnrunAll trees) (h' : UnrunAll more) :
    UnrunAll (trees ++ more) := by
  induction trees with
  | nil => exact h'
  | cons tree trees ih => exact ⟨h.1, ih h.2⟩

end TaskTree

namespace Binder
open ScopedTree TaskTree

variable {b : Binder} {room : Nat} {calls : CallChain} {n : NodeId} {ns : List NodeId}
  {r r' : Random} {tree : ScopedTree} {trees : List ScopedTree}

/-- At this level, what is bound has not run. -/
def BindsUnrun (b : Binder) (room : Nat) : Prop :=
  ∀ calls n r x r', b.Denotes room calls n r x r' → UnrunAll (x.map erase).toList

theorem BindsUnrun.all (h : b.BindsUnrun room) (hd : b.DenotesAll room calls ns r trees r') :
    UnrunAll (eraseAll trees) := by
  induction ns generalizing r trees with
  | nil =>
    cases hd
    trivial
  | cons n ns ih =>
    cases hd with
    | cons hn hs =>
      rw [eraseAll_append, eraseAll_toList]
      exact unrunAll_append (h _ _ _ _ _ hn) (ih hs)

theorem binds_unrun (b : Binder) (room : Nat) : b.BindsUnrun room := by
  induction room using Nat.strongRecOn with
  | ind room ih =>
    intro calls n r x r' hd
    cases hd with
    | other => trivial
    | action _ hc => exact ⟨⟨rfl, (ih _ (Nat.lt_succ_self _)).all hc⟩, trivial⟩
    | actionRef _ _ _ hc =>
      exact ⟨⟨rfl, (ih _ (Nat.lt_succ_of_le (Nat.sub_le _ 1))).all hc⟩, trivial⟩
    | «repeat» _ _ _ hbody =>
      exact ⟨⟨rfl, ih _ (Nat.lt_succ_self _) _ _ _ _ _ hbody⟩, trivial⟩
    | fire => exact ⟨⟨rfl, ⟨rfl, trivial⟩, trivial⟩, trivial⟩
    | fireRef => exact ⟨⟨rfl, ⟨rfl, trivial⟩, trivial⟩, trivial⟩
    | wait => exact ⟨⟨rfl, trivial⟩, trivial⟩
    | vanish => exact ⟨⟨rfl, trivial⟩, trivial⟩
    | changeDirection => exact ⟨⟨rfl, trivial⟩, trivial⟩
    | changeSpeed => exact ⟨⟨rfl, trivial⟩, trivial⟩
    | accel => exact ⟨⟨rfl, trivial⟩, trivial⟩

/-- An action is bound to a task that runs what is below it, and so is a reference to one. -/
theorem Denotes.root_isGroup {a : Arena} {owner : Option TaskId} {root : TaskId} {X : Finset TaskId}
    (hd : b.Denotes room calls n r (some tree) r') (hh : a.Holds owner [root] [tree.erase] X)
    (he : b.pattern.element n = .action ∨ b.pattern.element n = .actionRef) :
    ∃ task, a.get? root = some task ∧ task.kind.isGroup = true := by
  cases hd with
  | action =>
    cases hh with
    | cons ht => exact ⟨_, ht, rfl⟩
  | actionRef =>
    cases hh with
    | cons ht => exact ⟨_, ht, rfl⟩
  | _ => simp_all

end Binder

namespace Arena
open TaskTree

variable {a : Arena} {owner : Option TaskId} {cs : List TaskId} {trees : List TaskTree}
  {X : Finset TaskId}

/-- Tasks that were bound and have not run are an agenda, if none of them is a `repeat` or a
`vanish`. -/
theorem Holds.exists_agenda (h : a.Holds owner cs trees X) (hu : UnrunAll trees)
    (hk : ∀ id ∈ X, ∀ task, a.get? id = some task →
      (∀ state, task.kind ≠ .repeat state) ∧ task.kind ≠ .vanish) :
    ∃ A : Agenda, A.roots = cs ∧ A.Stands a ∧ A.Fresh a ∧ A.ids.Nodup ∧ ∀ id ∈ A.ids, id ∈ X := by
  induction h with
  | nil => exact ⟨.nil, rfl, trivial, nofun, List.nodup_nil, nofun⟩
  | @cons owner c cs children node params kind below trees X Y ht hc hX hs hd ihc ihs =>
    obtain ⟨⟨hkind, hbelow⟩, hrest⟩ := hu
    obtain ⟨B, rfl, hBs, hBf, hBn, hBX⟩ := ihc hbelow fun id hm => hk id (by simp [hm])
    obtain ⟨N, rfl, hNs, hNf, hNn, hNY⟩ := ihs hrest fun id hm => hk id (by simp [hm])
    obtain ⟨hrep, hvan⟩ := hk c (by simp) _ ht
    have hfresh : ∃ task, a.get? c = some task ∧ task.Fresh := ⟨_, ht, rfl, hkind⟩
    have hcB : c ∉ B.ids := fun hm => hX (hBX c hm)
    have hcN : c ∉ N.ids := fun hm =>
      Finset.disjoint_left.1 hd (by simp) (hNY c hm)
    cases hg : kind.isGroup with
    | true =>
      have hBN : ∀ id ∈ B.ids, ∀ k ∈ N.ids, id ≠ k := by
        rintro id hB k hN rfl
        exact Finset.disjoint_left.1 hd (by simp [hBX id hB]) (hNY id hN)
      refine ⟨.group c B N, rfl, ⟨⟨_, ht, hg, rfl⟩, hBs, hNs⟩, ?_, ?_, ?_⟩
      · intro id hm
        simp only [Agenda.ids, List.mem_cons, List.mem_append] at hm
        rcases hm with rfl | hm | hm
        · exact hfresh
        · exact hBf id hm
        · exact hNf id hm
      · rw [Agenda.ids, List.nodup_cons, List.mem_append, not_or]
        exact ⟨⟨hcB, hcN⟩, List.nodup_append.2 ⟨hBn, hNn, hBN⟩⟩
      · intro id hm
        simp only [Agenda.ids, List.mem_cons, List.mem_append] at hm
        rcases hm with rfl | hm | hm
        · simp
        · simp [hBX id hm]
        · simp [hNY id hm]
    | false =>
      have hl : kind.isLeaf = true := by
        cases kind with
        | action => cases hg
        | bullet => cases hg
        | «repeat» state => exact absurd rfl (hrep state)
        | vanish => exact absurd rfl hvan
        | _ => rfl
      refine ⟨.leaf c N, rfl, ⟨⟨_, ht, hl⟩, hNs⟩, ?_, List.nodup_cons.2 ⟨hcN, hNn⟩, ?_⟩
      · intro id hm
        rcases List.mem_cons.1 hm with rfl | hm
        · exact hfresh
        · exact hNf id hm
      · intro id hm
        rcases List.mem_cons.1 hm with rfl | hm
        · simp
        · simp [hNY id hm]

end Arena

/-- The tasks of an agenda are those below its roots. -/
theorem Agenda.Stands.mem_below {a : Arena} {A : Agenda} {id : TaskId} (h : A.Stands a)
    (hm : id ∈ A.ids) : id ∈ a.below A.roots := by
  have within {roots more : List TaskId} (hs : roots ⊆ more) (hb : id ∈ a.below roots) :
      id ∈ a.below more := by
    obtain ⟨hl, root, hr, path, hf⟩ := hb
    exact ⟨hl, root, hs hr, path, hf⟩
  induction A with
  | nil => cases hm
  | leaf c next ih =>
    obtain ⟨⟨task, ht, _⟩, hnext⟩ := h
    rcases List.mem_cons.1 hm with rfl | hm
    · exact ⟨Arena.contains_of_get? ht, id, List.mem_cons_self, [], rfl⟩
    · exact within (List.subset_cons_self _ _) (ih hnext hm)
  | group c below next ihb ih =>
    obtain ⟨⟨task, ht, _, hc⟩, hbelow, hnext⟩ := h
    simp only [Agenda.ids, List.mem_cons, List.mem_append] at hm
    rcases hm with rfl | hm | hm
    · exact ⟨Arena.contains_of_get? ht, id, List.mem_cons_self, [], rfl⟩
    · obtain ⟨hl, root, hr, path, hf⟩ := ihb hbelow hm
      obtain ⟨i, hi⟩ := List.getElem?_of_mem hr
      refine ⟨hl, c, List.mem_cons_self, i :: path, ?_⟩
      rw [Arena.follow_cons ht, hc, hi]
      exact hf
    · exact within (List.subset_cons_self _ _) (ih hnext hm)

namespace Turn
open Timetable

variable {p : Pattern} {fuel n f : Nat} {job : Job} {id root : TaskId} {kept roots : List TaskId}
  {t t' : Turn} {calls : List Call} {r : Except PatternError Status} {status : Status}
  {a : Arena} {A : Agenda} {cues : List Cue}

section Roots

/-- What is run leaves alone which roots the bullet has. -/
theorem Runs.roots_kept (h : Runs p fuel job t calls r t') : t'.bullet.tasks = t.bullet.tasks := by
  induction h with
  | exhausted => rfl
  | stale => rfl
  | finished => rfl
  | leaf _ _ ha =>
    rw [bullet_close]
    cases ha <;> rfl
  | composite _ _ _ _ ih =>
    rw [bullet_close]
    exact ih
  | «repeat» _ _ _ hc _ ih =>
    rw [bullet_close, ih]
    cases hc <;> rfl
  | done => rfl
  | skip _ _ ih => exact ih
  | halt _ _ _ _ ih => exact ih
  | cut _ _ _ _ ih => exact ih
  | next _ _ _ _ _ ih ih' => exact ih'.trans ih
  | lost => rfl
  | bare => rfl
  | spent => rfl
  | hold _ _ _ _ ih => exact ih
  | vacant _ _ _ _ ih => exact ih
  | last _ _ _ _ _ ih => exact ih
  | unbound _ _ _ _ hb ih => exact (congrArg Bullet.tasks (bullet_rebind hb)).trans ih
  | again _ _ _ _ hb _ ih ih' =>
    exact ih'.trans ((congrArg Bullet.tasks (bullet_rebind hb)).trans ih)

/-- A bullet gets no new roots in its turn. -/
theorem RunsRoots.tasks_subset (h : RunsRoots p kept roots t calls t')
    (hb : t.bullet.tasks ⊆ kept ++ roots) : t'.bullet.tasks ⊆ kept ++ roots := by
  have fewer {kept rest : List TaskId} (root : TaskId) : kept ++ rest ⊆ kept ++ root :: rest :=
    List.append_subset.2 ⟨List.subset_append_left _ _,
      fun k hk => List.mem_append_right _ (List.mem_cons_of_mem _ hk)⟩
  induction h with
  | done => exact hb
  | fault => exact List.nil_subset _
  | cut hr =>
    rw [hr.roots_kept]
    exact hb
  | stays hr _ _ _ ih =>
    rw [List.append_cons] at hb ⊢
    apply ih
    rw [hr.roots_kept]
    exact hb
  | last => exact fewer _
  | ends _ _ _ ih => exact List.Subset.trans (ih (List.Subset.refl _)) (fewer _)

/-- A root that has ended is none of the bullet's any more, and so is not run again. -/
theorem root_of_ended {rest : List TaskId} (hr : runTask p maxTaskChain root t = .ok .ended t')
    (hn : root ∉ kept ++ rest) : root ∉ (runRoots p kept (root :: rest) t).bullet.tasks := by
  rw [runRoots_of_ended hr]
  split
  · exact hn
  · have hrest := logged_roots p kept rest (t'.dismiss root (kept ++ rest))
    exact fun hm => hn (hrest.tasks_subset (List.Subset.refl _) hm)

end Roots

section Ending

variable {task : Task}

theorem runTask_of_finished (fuel : Nat) (ht : t.tasks.get? id = some task)
    (hf : task.isFinished = true) : runTask p (fuel + 1) id t = .ok .ended t := by
  rw [runTask, bind_of_ok (task_of_some ht)]
  simp only [hf, if_true]
  rfl

theorem live_of_ok (hr : runTask p fuel id t = .ok status t') :
    ∃ k task, fuel = k + 1 ∧ t.tasks.get? id = some task := by
  cases fuel with
  | zero => cases hr
  | succ k =>
    cases ht : t.tasks.get? id with
    | none =>
      rw [runTask, bind_of_error (task_of_none ht)] at hr
      cases hr
    | some task => exact ⟨k, task, rfl, rfl⟩

/-- A task that has ended is over. -/
theorem isFinished_of_ended (hr : runTask p fuel id t = .ok .ended t') :
    t'.tasks.isFinished id = true := by
  obtain ⟨k, task, rfl, ht⟩ := live_of_ok hr
  cases hf : task.isFinished with
  | true =>
    rw [runTask_of_finished k ht hf] at hr
    cases hr
    exact (Arena.isFinished_of_live ht).trans hf
  | false =>
    rw [runTask_of_unfinished k ht hf] at hr
    cases hx : runKind p (runTask p k) id task (t.start id) with
    | error e t₁ =>
      rw [hx] at hr
      cases hr
    | ok status t₁ =>
      rw [hx] at hr
      cases hr
      cases hget : t₁.tasks.get? id with
      | none =>
        apply Arena.isFinished_of_dead
        rw [close, Arena.get?_modify, if_pos rfl, hget]
        rfl
      | some task₁ => exact (Arena.isFinished_of_live (get?_close hget .ended)).trans isFinished_finished

/-- A sequence of one task leaves what the task leaves. -/
theorem state_runSequence (hr : runTask p fuel root t = .ok status t') (s : Status) :
    state (runSequence (runTask p fuel) [root] s t) = t' := by
  cases hf : t.tasks.isFinished root with
  | true =>
    obtain ⟨k, task, rfl, ht⟩ := live_of_ok hr
    rw [runTask_of_finished k ht ((Arena.isFinished_of_live ht).symm.trans hf)] at hr
    cases hr
    rw [runSequence_of_finished hf]
    rfl
  | false =>
    by_cases hp : status = .paused
    · subst hp
      rw [runSequence_of_paused hf hr]
      rfl
    · cases hv : t'.bullet.vanished with
      | true =>
        rw [runSequence_of_vanished hf hr hp hv]
        rfl
      | false =>
        rw [runSequence_of_next hf hr hp hv]
        rfl

end Ending

/-- A root is run once in each of `n` frames, from the states `t`, for a bullet that flies. No frame
fails, and nobody else touches the tasks below the root, which were new in `a`. -/
structure RootFrames (p : Pattern) (root : TaskId) (a : Arena) (n : Nat) (t : Nat → Turn) :
    Prop where
  bound : 0 < n → a.SameBelow (t 0).tasks [root]
  sound : ∀ f < n, (t f).tasks.Sound
  flying : ∀ f < n, (t f).bullet.vanished = false
  runs : ∀ f < n, ∃ status t', runTask p maxTaskChain root (t f) = .ok status t'
  carried : ∀ f, f + 1 < n →
    (state (runTask p maxTaskChain root (t f))).tasks.SameBelow (t (f + 1)).tasks [root]

namespace RootFrames

variable {t : Nat → Turn} (h : RootFrames p root a n t) (hr : A.roots = [root])
  (hA : A.Stands a)

include h hr hA in
/-- Frame by frame, the root stands on its agenda and works on it only. -/
theorem tends (hf : f < n) : A.Stands (t f).tasks ∧ ∃ status t',
    runTask p maxTaskChain root (t f) = .ok status t' ∧ (t f).Tends t' A.ids := by
  have step (f : Nat) (hf : f < n) (hs : A.Stands (t f).tasks) : ∃ status t',
      runTask p maxTaskChain root (t f) = .ok status t' ∧ (t f).Tends t' A.ids := by
    obtain ⟨status, t', hrun⟩ := h.runs f hf
    have hlogged := logged_sequence (logged_task p maxTaskChain) [root] .ended (t f)
    rw [← hr] at hlogged
    have htends := hlogged.tends (h.sound f hf) hs
    rw [hr, state_runSequence hrun] at htends
    exact ⟨status, t', hrun, htends⟩
  induction f with
  | zero =>
    have hs : A.Stands (t 0).tasks := hA.of_agree fun id hm =>
      (h.bound hf).tasks id (hr ▸ hA.mem_below hm)
    exact ⟨hs, step 0 hf hs⟩
  | succ f ih =>
    obtain ⟨hs, status, t', hrun, htends⟩ := ih (Nat.lt_of_succ_lt hf)
    have hs' := htends.stands hs
    have hcarried := h.carried f hf
    rw [hrun] at hcarried
    have hnext : A.Stands (t (f + 1)).tasks := hs'.of_agree fun id hm =>
      hcarried.tasks id (hr ▸ hs'.mem_below hm)
    exact ⟨hnext, step (f + 1) hf hnext⟩

include h hr hA in
theorem carried_task (hf : f + 1 < n) {status : Status} {t' : Turn}
    (hrun : runTask p maxTaskChain root (t f) = .ok status t') (hm : id ∈ A.ids) :
    (t (f + 1)).tasks.get? id = t'.tasks.get? id := by
  obtain ⟨hs, _, _, hrun', htends⟩ := h.tends hr hA (Nat.lt_of_succ_lt hf)
  rw [hrun] at hrun'
  cases hrun'
  have hcarried := h.carried f hf
  rw [hrun] at hcarried
  exact hcarried.tasks id (hr ▸ (htends.stands hs).mem_below hm)

include h hr hA in
/-- The frames of the root are frames of its agenda. -/
theorem frames (hF : A.Fresh a) : Frames p maxTaskChain A n (fun _ => .ended) t where
  status _ _ := nofun
  sound := h.sound
  flying := h.flying
  runs f hf := by
    obtain ⟨status, t', hrun⟩ := h.runs f hf
    rw [hr]
    cases hf : (t f).tasks.isFinished root with
    | true => exact ⟨_, _, runSequence_of_finished hf⟩
    | false =>
      by_cases hp : status = .paused
      · subst hp
        exact ⟨_, _, runSequence_of_paused hf hrun⟩
      · cases hv : t'.bullet.vanished with
        | true => exact ⟨_, _, runSequence_of_vanished hf hrun hp hv⟩
        | false => exact ⟨_, _, runSequence_of_next hf hrun hp hv⟩
  carried f hf id hm := by
    obtain ⟨status, t', hrun⟩ := h.runs f (Nat.lt_of_succ_lt hf)
    rw [hr, state_runSequence hrun]
    exact h.carried_task hr hA hf hrun hm
  stands hn := (h.tends hr hA hn).1
  fresh hn id hm := by
    obtain ⟨task, ht, hfresh⟩ := hF id hm
    exact ⟨task, ((h.bound hn).tasks id (hr ▸ hA.mem_below hm)).trans ht, hfresh⟩

end RootFrames

theorem logTask_of_finished (fuel : Nat) {task : Task} (ht : t.tasks.get? id = some task)
    (hf : task.isFinished = true) :
    logTask p (fuel + 1) id t = [⟨id, t, .ok .ended, t⟩] := by
  rw [logTask, logWithin_of_finished ht hf, runTask_of_finished fuel ht hf]
  rfl

/-- A root that runs others answers what a sequence of it alone does, and the same leaves are run. -/
theorem runSequence_root {task : Task} (ht : t.tasks.get? root = some task)
    (hg : task.kind.isGroup = true) (hr : runTask p fuel root t = .ok status t')
    (hv : t'.bullet.vanished = false) :
    runSequence (runTask p fuel) [root] .ended t = .ok status t' ∧
      (logSequence (runTask p fuel) (logTask p fuel) [root] t).filter Call.isLeaf =
        (logTask p fuel root t).filter Call.isLeaf := by
  cases hf : task.isFinished with
  | true =>
    obtain ⟨k, _, rfl, _⟩ := live_of_ok hr
    have hfin := (Arena.isFinished_of_live ht).trans hf
    have hl : task.kind.isLeaf = false := by
      cases hk : task.kind <;> rw [hk] at hg <;> first | rfl | cases hg
    rw [runTask_of_finished k ht hf] at hr
    cases hr
    rw [runSequence_of_finished hfin, logSequence, if_pos hfin, logTask_of_finished k ht hf,
      List.filter_cons, isLeaf_call ht, hl]
    exact ⟨rfl, rfl⟩
  | false =>
    obtain ⟨hrun, hlog⟩ :=
      runSequence_single (s := .ended) ((Arena.isFinished_of_live ht).trans hf) hr hv
    rw [hrun, hlog]
    refine ⟨?_, rfl⟩
    cases status <;> rfl

/-- In frame `f`, counted from zero, the root goes by the cues. It is held up as long as waits hold
it up, it goes on up to the finale, and then it ends and is let go. Just the leaves that the frame
covers are run, in order, and the changes among them push the bullet. -/
structure OnTime (p : Pattern) (root : TaskId) (cues : List Cue) (f : Nat) (t : Turn) : Prop where
  answer : ∃ t', runTask p maxTaskChain root t = .ok
      (if f < pauses cues then .paused else if f + 1 < finale cues then .ongoing else .ended) t' ∧
    t'.bullet = (cues.filter (Cue.covers f)).foldl Cue.push t.bullet
  log : List.Forall₂ (Cue.Runs p f) (cues.filter (Cue.covers f))
    ((logTask p maxTaskChain root t).filter Call.isLeaf)
  gone : f + 1 = finale cues → ∀ kept rest, root ∉ kept ++ rest →
    root ∉ (runRoots p kept (root :: rest) t).bullet.tasks
  ended : finale cues ≤ f → runTask p maxTaskChain root t = .ok .ended t

theorem RootFrames.onTime {t : Nat → Turn} {task : Task} (h : RootFrames p root a n t)
    (hr : A.roots = [root]) (hA : A.Stands a) (hF : A.Fresh a) (hn : A.ids.Nodup)
    (ht : a.get? root = some task) (hg : task.kind.isGroup = true) :
    ∃ cues : List Cue, cues.map Cue.leaf = A.leaves ∧ Timed 0 cues ∧
      ∀ f < n, OnTime p root cues f (t f) := by
  obtain ⟨cues, hleaves, htimed, hin⟩ := scheduled p A hn _ n _ t (h.frames hr hA hF)
  have hroot : root ∈ A.roots := hr ▸ List.mem_singleton_self root
  have answers (f : Nat) (hf : f < n) : ∃ t', runTask p maxTaskChain root (t f) = .ok
      (if f < pauses cues then .paused else if f + 1 < finale cues then .ongoing else .ended) t' ∧
      t'.bullet = (cues.filter (Cue.covers f)).foldl Cue.push (t f).bullet ∧
      List.Forall₂ (Cue.Runs p f) (cues.filter (Cue.covers f))
        ((logTask p maxTaskChain root (t f)).filter Call.isLeaf) := by
    obtain ⟨hs, status, t', hrun, htends⟩ := h.tends hr hA hf
    obtain ⟨_, ht', hg'⟩ := hA.group hs hroot ht hg
    obtain ⟨hseq, hlogs⟩ := runSequence_root ht' hg' hrun (htends.vanished.trans (h.flying f hf))
    obtain ⟨⟨_, hanswer, hbullet⟩, hlog⟩ := hin f hf
    rw [hr] at hanswer hlog
    rw [hseq, EStateM.Result.ok.injEq] at hanswer
    obtain ⟨rfl, rfl⟩ := hanswer
    rw [htimed.verdict_eq] at hrun
    rw [hlogs] at hlog
    exact ⟨t', hrun, hbullet, hlog⟩
  refine ⟨cues, hleaves, htimed, fun f hf => ?_⟩
  obtain ⟨t', hrun, hbullet, hlog⟩ := answers f hf
  refine ⟨⟨t', hrun, hbullet⟩, hlog, ?_, ?_⟩
  · intro hlast kept rest hnotMem
    have hlt := pauses_lt_finale cues
    rw [if_neg (by omega), if_neg (by omega)] at hrun
    exact root_of_ended hrun hnotMem
  · intro hover
    have hlt := pauses_lt_finale cues
    obtain ⟨e, rfl⟩ : ∃ e, f = e + 1 := ⟨f - 1, by omega⟩
    -- the frame before has ended the root
    obtain ⟨t₁, hrun₁, _⟩ := answers e (Nat.lt_of_succ_lt hf)
    rw [if_neg (by omega), if_neg (by omega)] at hrun₁
    have hget := h.carried_task hr hA hf hrun₁ (Agenda.mem_ids_of_root hroot)
    obtain ⟨k, task', hk, ht'⟩ := live_of_ok hrun
    rw [hget] at ht'
    have hfin := (Arena.isFinished_of_live ht').symm.trans (isFinished_of_ended hrun₁)
    rw [hk]
    exact runTask_of_finished k (hget.trans ht') hfin

/-- A bound action below which nothing repeats or vanishes keeps to a timetable, whatever else
happens between its frames. Its leaves, in document order, each begin when the waits before them are
over, with the values that they have then. -/
theorem bound_actions_run_on_time {b : Binder} {room : Nat} {node : NodeId} {owner : Option TaskId}
    {params : List Float32} {s s' : BindState} {t : Nat → Turn} (hs : s.tasks.Sound)
    (he : b.pattern.element node = .action ∨ b.pattern.element node = .actionRef)
    (hb : b.bindNode room node owner params s = .ok (some root) s')
    (hk : ∀ id ∈ s'.tasks.below [root], ∀ task, s'.tasks.get? id = some task →
      (∀ state, task.kind ≠ .repeat state) ∧ task.kind ≠ .vanish)
    (h : RootFrames b.pattern root s'.tasks n t) :
    ∃ (A : Agenda) (cues : List Cue), A.roots = [root] ∧ A.Stands s'.tasks ∧
      cues.map Cue.leaf = A.leaves ∧ Timed 0 cues ∧
      ∀ f < n, OnTime b.pattern root cues f (t f) := by
  obtain ⟨tree, hd, ⟨_, X, hholds⟩, _⟩ := Binder.bound_as_denoted hs hb
  have hbelow : s'.tasks.below [root] = ↑X := hholds.spans.below_eq
  have hunrun : TaskTree.UnrunAll [tree.erase] := b.binds_unrun room _ _ _ _ _ hd
  obtain ⟨A, hr, hA, hF, hn, _⟩ := hholds.exists_agenda hunrun fun id hm => hk id (hbelow ▸ hm)
  obtain ⟨task, ht, hg⟩ := hd.root_isGroup hholds he
  obtain ⟨cues, hleaves, htimed, hon⟩ := h.onTime hr hA hF hn ht hg
  exact ⟨A, cues, hr, hA, hleaves, htimed, hon⟩

/-- The states of a root that is run frame by frame and that nothing else happens to. -/
def replay (p : Pattern) (root : TaskId) (t : Turn) : Nat → Turn
  | 0 => t
  | f + 1 => state (runTask p maxTaskChain root (replay p root t f))

/-- What the root answers in its first `n` frames. -/
def answers (p : Pattern) (root : TaskId) (t : Turn) (n : Nat) : List (Option Status) :=
  (List.range n).map fun f => (answer (runTask p maxTaskChain root (replay p root t f))).toOption

theorem rootFrames_replay {t : Turn} (hs : t.tasks.Sound)
    (hv : ∀ f < n, (replay p root t f).bullet.vanished = false)
    (hr : ∀ x ∈ answers p root t n, x.isSome = true) :
    RootFrames p root t.tasks n (replay p root t) where
  bound _ := .refl _ _
  sound f hf := by
    clear hf
    induction f with
    | zero => exact hs
    | succ f ih => exact ((logged_task p maxTaskChain root _).evolves ih).sound
  flying := hv
  runs f hf := by
    have hsome := hr _ (List.mem_map_of_mem (List.mem_range.2 hf))
    cases hx : runTask p maxTaskChain root (replay p root t f) with
    | ok status t' => exact ⟨status, t', rfl⟩
    | error e t' =>
      rw [hx] at hsome
      cases hsome
  carried _ _ := .refl _ _

end Turn

/-- A pattern that waits before it speeds up, and once more while it does. -/
def Pattern.lull : Pattern :=
  let p := ((ofName "lull").addNode root .action).2
  let p := (p.setLabel ⟨1⟩ "top").1
  let p := (p.addNode ⟨1⟩ .wait).2
  let p := p.setExpr ⟨2⟩ (.const 1)
  let p := (p.addNode ⟨1⟩ .action).2
  let p := (p.addNode ⟨3⟩ .changeSpeed).2
  let p := (p.addNode ⟨4⟩ .speed).2
  let p := (p.addNode ⟨4⟩ .term).2
  let p := p.setExpr ⟨6⟩ (.const 3)
  let p := (p.addNode ⟨1⟩ .wait).2
  p.setExpr ⟨7⟩ (.const 1)

/-- A lull is held up in two frames, and changes its speed in three from the second on. -/
theorem Turn.lull_runs_on_time :
    let b : Binder := ⟨.lull, 0, .atRest ⟨0, 0⟩⟩
    let s : BindState := ⟨.empty, .ofSeed 0⟩
    s.tasks.Sound ∧ b.pattern.element ⟨1⟩ = .action ∧
    ∃ root s', b.bindNode (maxNestDepth + 1) ⟨1⟩ none [] s = .ok (some root) s' ∧
      let t : Turn := ⟨b.bullet, s'.tasks, .ofCapacity 0, .ofSeed 0 0, #[]⟩
      (∀ id ∈ s'.tasks.below [root], ∀ task, s'.tasks.get? id = some task →
        (∀ state, task.kind ≠ .repeat state) ∧ task.kind ≠ .vanish) ∧
      RootFrames .lull root s'.tasks 5 (replay .lull root t) ∧
      answers .lull root t 5 =
        [some .paused, some .paused, some .ongoing, some .ended, some .ended] ∧
      ∃ (A : Agenda) (cues : List Cue), A.roots = [root] ∧ A.Stands s'.tasks ∧
        cues.map Cue.leaf = A.leaves ∧ Timetable.Timed 0 cues ∧
        ∀ f < 5, OnTime .lull root cues f (replay .lull root t f) := by
  intro b s
  have helement : b.pattern.element ⟨1⟩ = .action := by decide +kernel
  obtain ⟨s', hb, hkinds, hanswers, hflying⟩ : ∃ s' : BindState,
      b.bindNode (maxNestDepth + 1) ⟨1⟩ none [] s = .ok (some ⟨0, 0⟩) s' ∧
      (s'.tasks.store.slots.toList.all fun slot => slot.value.all fun task =>
        task.kind.isLeaf || task.kind.isGroup) = true ∧
      answers .lull ⟨0, 0⟩ ⟨b.bullet, s'.tasks, .ofCapacity 0, .ofSeed 0 0, #[]⟩ 5 =
        [some .paused, some .paused, some .ongoing, some .ended, some .ended] ∧
      ∀ f < 5, (replay .lull ⟨0, 0⟩ ⟨b.bullet, s'.tasks, .ofCapacity 0, .ofSeed 0 0, #[]⟩
        f).bullet.vanished = false :=
    ⟨match b.bindNode (maxNestDepth + 1) ⟨1⟩ none [] s with
      | .ok _ s => s
      | .error _ s => s, rfl, by decide +kernel, by decide +kernel, by decide +kernel⟩
  refine ⟨Arena.sound_empty, helement, ⟨0, 0⟩, s', hb, ?_⟩
  intro t
  have hsound : s'.tasks.Sound := by
    have hbinds := b.follows_node (maxNestDepth + 1) ⟨1⟩ none [] s Arena.sound_empty
    rw [hb] at hbinds
    generalize b.expandNode _ _ _ _ = expanded at hbinds
    cases hbinds with
    | ok hr => exact hr.sound
  have hk : ∀ id ∈ s'.tasks.below [⟨0, 0⟩], ∀ task, s'.tasks.get? id = some task →
      (∀ state, task.kind ≠ .repeat state) ∧ task.kind ≠ .vanish := by
    intro id _ task ht
    obtain ⟨slot, hslot, hvalue⟩ := Option.bind_eq_some_iff.1 ht
    obtain ⟨hmem, _⟩ := Option.filter_eq_some_iff.1 hslot
    have hkind := List.all_eq_true.1 hkinds slot (Array.mem_toList_iff.2 (Array.mem_of_getElem? hmem))
    rw [hvalue] at hkind
    constructor
    · rintro state hs
      simp [hs, TaskKind.isLeaf, TaskKind.isGroup] at hkind
    · intro hs
      simp [hs, TaskKind.isLeaf, TaskKind.isGroup] at hkind
  have hframes : RootFrames .lull ⟨0, 0⟩ s'.tasks 5 (replay .lull ⟨0, 0⟩ t) := by
    refine rootFrames_replay hsound hflying ?_
    rw [hanswers]
    decide
  exact ⟨hk, hframes, hanswers,
    bound_actions_run_on_time Arena.sound_empty (.inl helement) hb hk hframes⟩

end Barrage

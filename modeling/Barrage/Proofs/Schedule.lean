import Barrage.Proofs.Timetable

namespace Barrage.Turn
open Timetable

section Sequence

variable {run : TaskId → Run Status} {log : TaskId → Turn → List Call} {c : TaskId}
  {cs : List TaskId} {s status : Status} {t t' : Turn}

variable (log cs) in
/-- A sequence goes on after its first task, unless that task holds it up. -/
theorem runSequence_cons (h : runSequence run [c] s t = .ok status t') (hs : s ≠ .paused)
    (hv : t'.bullet.vanished = false) :
    runSequence run (c :: cs) s t =
        (if status = .paused then .ok .paused t' else runSequence run cs status t') ∧
      logSequence run log (c :: cs) t =
        logSequence run log [c] t ++ if status = .paused then [] else logSequence run log cs t' := by
  cases hf : t.tasks.isFinished c with
  | true =>
    rw [runSequence_of_finished hf] at h ⊢
    cases h
    simp only [logSequence, hf, if_true, if_neg hs, List.nil_append, and_self]
  | false =>
    cases hr : run c t with
    | error e t₁ =>
      rw [runSequence_of_error hf hr] at h
      cases h
    | ok answer t₁ =>
      by_cases ha : answer = .paused
      · subst ha
        rw [runSequence_of_paused hf hr] at h ⊢
        cases h
        simp [logSequence, hf, hr]
      · cases hv₁ : t₁.bullet.vanished with
        | true =>
          rw [runSequence_of_vanished hf hr ha hv₁] at h
          cases h
          rw [hv] at hv₁
          cases hv₁
        | false =>
          rw [runSequence_of_next hf hr ha hv₁] at h ⊢
          cases h
          have hne : answer.after s ≠ .paused := by
            cases answer with
            | paused => exact absurd rfl ha
            | ongoing => simp [Status.after]
            | ended => exact hs
          rw [if_neg hne, if_neg hne]
          refine ⟨rfl, ?_⟩
          simp only [logSequence, hf, hr, Bool.false_eq_true, if_false]
          cases answer with
          | paused => exact absurd rfl ha
          | ongoing => simp [hv]
          | ended => simp [hv]

/-- A sequence that does not fail does not fail at its first task. -/
theorem runSequence_head {t'' : Turn} (h : runSequence run (c :: cs) s t = .ok status t'') :
    ∃ status t', runSequence run [c] s t = .ok status t' := by
  cases hf : t.tasks.isFinished c with
  | true => exact ⟨s, t, runSequence_of_finished hf⟩
  | false =>
    cases hr : run c t with
    | error e t₁ =>
      rw [runSequence_of_error hf hr] at h
      cases h
    | ok answer t₁ =>
      by_cases ha : answer = .paused
      · subst ha
        exact ⟨_, _, runSequence_of_paused hf hr⟩
      · cases hv₁ : t₁.bullet.vanished with
        | true => exact ⟨_, _, runSequence_of_vanished hf hr ha hv₁⟩
        | false => exact ⟨_, _, runSequence_of_next hf hr ha hv₁⟩

end Sequence

/-- The agenda is run in `n` frames one after the other, from the states `t` and each time after
tasks that have answered `s`. No frame fails, and nobody else touches its tasks between them. -/
structure Frames (p : Pattern) (fuel : Nat) (A : Agenda) (n : Nat) (s : Nat → Status)
    (t : Nat → Turn) : Prop where
  status : ∀ f < n, s f ≠ .paused
  sound : ∀ f < n, (t f).tasks.Sound
  flying : ∀ f < n, (t f).bullet.vanished = false
  runs : ∀ f < n, ∃ status t', runSequence (runTask p fuel) A.roots (s f) (t f) = .ok status t'
  carried : ∀ f, f + 1 < n → ∀ id ∈ A.ids, (t (f + 1)).tasks.get? id =
    (state (runSequence (runTask p fuel) A.roots (s f) (t f))).tasks.get? id
  stands : 0 < n → A.Stands (t 0).tasks
  fresh : 0 < n → A.Fresh (t 0).tasks

/-- Frame `f` goes by the cues: they tell what is answered, which leaves are run, and how the bullet
is pushed. -/
structure InTime (p : Pattern) (fuel : Nat) (A : Agenda) (cues : List Cue) (f : Nat) (s : Status)
    (t : Turn) : Prop where
  answer : ∃ t', runSequence (runTask p fuel) A.roots s t = .ok (verdict cues f s) t' ∧
    t'.bullet = (cues.filter (Cue.covers f)).foldl Cue.push t.bullet
  log : List.Forall₂ (Cue.Runs p f) (cues.filter (Cue.covers f))
    ((logSequence (runTask p fuel) (logTask p fuel) A.roots t).filter Call.isLeaf)

/-- In frame `f` an agenda is run up to `middle` by its first task, which goes by the cues, and from
there on by the others. -/
structure Parts (p : Pattern) (fuel : Nat) (H B : Agenda) (cues : List Cue) (f : Nat) (s : Status)
    (t middle : Turn) : Prop where
  flying : middle.bullet.vanished = false
  sound : middle.tasks.Sound
  tends : t.Tends middle H.ids
  run : runSequence (runTask p fuel) (H.append B).roots s t =
    if f < pauses cues then .ok .paused middle
    else runSequence (runTask p fuel) B.roots (verdict cues f s) middle
  log : logSequence (runTask p fuel) (logTask p fuel) (H.append B).roots t =
    logSequence (runTask p fuel) (logTask p fuel) H.roots t ++
      if f < pauses cues then []
      else logSequence (runTask p fuel) (logTask p fuel) B.roots middle

/-- Whenever the agenda is run frame by frame, it is run by the cues of its leaves. -/
def Scheduled (p : Pattern) (A : Agenda) : Prop :=
  ∀ fuel n s t, Frames p fuel A n s t → ∃ cues : List Cue,
    cues.map Cue.leaf = A.leaves ∧ Timed 0 cues ∧ ∀ f < n, InTime p fuel A cues f (s f) (t f)

variable {p : Pattern} {fuel n f : Nat} {A B H : Agenda} {s : Nat → Status} {t : Nat → Turn}
  {a a' : Arena} {id : TaskId}

namespace Frames

theorem tends (h : Frames p fuel A n s t) (hf : f < n) (hA : A.Stands (t f).tasks) :
    (t f).Tends (state (runSequence (runTask p fuel) A.roots (s f) (t f))) A.ids :=
  (logged_sequence (logged_task p fuel) A.roots (s f) (t f)).tends (h.sound f hf) hA

theorem stands_at (h : Frames p fuel A n s t) (hf : f < n) : A.Stands (t f).tasks := by
  induction f with
  | zero => exact h.stands hf
  | succ f ih =>
    have hlast : f < n := Nat.lt_of_succ_lt hf
    exact ((h.tends hlast (ih hlast)).stands (ih hlast)).of_agree (h.carried f hf)

section Compose

variable {c : TaskId} (h : Frames p fuel (H.append B) n s t) (hc : H.roots = [c])
  (hd : ∀ id ∈ H.ids, id ∉ B.ids)

include h hc in
/-- The first task of a frame is run, and then the others if it does not hold them up. -/
theorem split (hf : f < n) : ∃ status t',
    runSequence (runTask p fuel) H.roots (s f) (t f) = .ok status t' ∧
    t'.bullet.vanished = false ∧ t'.tasks.Sound ∧ (t f).Tends t' H.ids ∧
    runSequence (runTask p fuel) (H.append B).roots (s f) (t f) =
      (if status = .paused then .ok .paused t' else
        runSequence (runTask p fuel) B.roots status t') ∧
    logSequence (runTask p fuel) (logTask p fuel) (H.append B).roots (t f) =
      logSequence (runTask p fuel) (logTask p fuel) H.roots (t f) ++
        if status = .paused then []
        else logSequence (runTask p fuel) (logTask p fuel) B.roots t' := by
  obtain ⟨_, _, hrun⟩ := h.runs f hf
  have hroots : (H.append B).roots = c :: B.roots := by rw [Agenda.roots_append, hc]; rfl
  rw [hroots] at hrun ⊢
  obtain ⟨status, t', hhead⟩ := runSequence_head hrun
  have hlogged := logged_sequence (logged_task p fuel) [c] (s f) (t f)
  rw [hhead] at hlogged
  rw [hc]
  have hstands := (Agenda.stands_append.1 (h.stands_at hf)).1
  rw [← hc] at hlogged
  have htends : (t f).Tends t' H.ids := hlogged.tends (h.sound f hf) hstands
  have hv : t'.bullet.vanished = false := htends.vanished.trans (h.flying f hf)
  obtain ⟨hwhole, hlog⟩ := runSequence_cons (logTask p fuel) B.roots hhead (h.status f hf) hv
  exact ⟨status, t', hhead, hv, (hlogged.evolves (h.sound f hf)).sound, htends, hwhole, hlog⟩

include h hc hd in
/-- What follows the first task leaves its tasks as it has left them. -/
theorem head_kept (hf : f < n) (hid : id ∈ H.ids) :
    (state (runSequence (runTask p fuel) (H.append B).roots (s f) (t f))).tasks.get? id =
      (state (runSequence (runTask p fuel) H.roots (s f) (t f))).tasks.get? id := by
  obtain ⟨status, t', hhead, _, hsound, htends, hwhole, _⟩ := h.split hc hf
  obtain ⟨hH, hB⟩ := Agenda.stands_append.1 (h.stands_at hf)
  rw [hwhole, hhead]
  split
  · rfl
  · have hlogged := logged_sequence (logged_task p fuel) B.roots status t'
    obtain ⟨task, ht⟩ := (htends.stands hH).live hid
    exact ((hlogged.tends hsound (htends.stands hB)).get? ht (hd id hid)).trans ht.symm

include h hc hd in
theorem head : Frames p fuel H n s t where
  status := h.status
  sound := h.sound
  flying := h.flying
  runs f hf := by
    obtain ⟨status, t', hhead, _⟩ := h.split hc hf
    exact ⟨status, t', hhead⟩
  carried f hf id hid := by
    have hlast : f < n := Nat.lt_of_succ_lt hf
    rw [h.carried f hf id (by simp [hid]), h.head_kept hc hd hlast hid]
  stands hn := (Agenda.stands_append.1 (h.stands hn)).1
  fresh hn := (Agenda.fresh_append.1 (h.fresh hn)).1

variable {cues more : List Cue} (hin : ∀ f < n, InTime p fuel H cues f (s f) (t f))

/-- Where the first task has left things in frame `f`. -/
def between (p : Pattern) (fuel : Nat) (H : Agenda) (s : Nat → Status) (t : Nat → Turn) (f : Nat) :
    Turn :=
  state (runSequence (runTask p fuel) H.roots (s f) (t f))

include h hc hin in
theorem parts (hf : f < n) : Parts p fuel H B cues f (s f) (t f) (between p fuel H s t f) := by
  obtain ⟨status, t', hhead, hv, hsound, htends, hwhole, hlog⟩ := h.split hc hf
  obtain ⟨t₁, hanswer, _⟩ := (hin f hf).answer
  have hmiddle : between p fuel H s t f = t' := by rw [between, hhead]; rfl
  rw [hhead, EStateM.Result.ok.injEq] at hanswer
  have hpaused : status = .paused ↔ f < pauses cues := by
    rw [hanswer.1]
    by_cases hp : f < pauses cues
    · simp only [verdict, hp, if_true]
    · simp only [verdict_ne_paused (Nat.le_of_not_lt hp) (h.status f hf), hp]
  rw [hmiddle]
  refine ⟨hv, hsound, htends, ?_, ?_⟩
  · rw [hwhole, ← hanswer.1]
    simp only [hpaused]
  · rw [hlog]
    simp only [hpaused]

include h hc hd hin in
/-- Tasks that are held up are as they were. -/
theorem held (hf : f < n) (hp : f ≤ pauses cues) (hid : id ∈ B.ids) :
    (t f).tasks.get? id = (t 0).tasks.get? id := by
  induction f with
  | zero => rfl
  | succ f ih =>
    have hlast : f < n := Nat.lt_of_succ_lt hf
    have hparts := h.parts hc hin hlast
    obtain ⟨task, ht⟩ := (Agenda.stands_append.1 (h.stands_at hlast)).2.live hid
    rw [h.carried f hf id (by simp [hid]), hparts.run, if_pos (Nat.lt_of_succ_le hp)]
    have hkept := hparts.tends.get? ht fun hm => hd id hm hid
    exact hkept.trans (ht.symm.trans (ih hlast (Nat.le_of_succ_le hp)))

include h hc hd hin in
/-- From the frame on in which the first task does not hold them up any more, the others are run
frame by frame. -/
theorem tail : Frames p fuel B (n - pauses cues)
    (fun g => verdict cues (pauses cues + g) (s (pauses cues + g)))
    (fun g => between p fuel H s t (pauses cues + g)) where
  status g hg := verdict_ne_paused (Nat.le_add_right _ _) (h.status _ (by omega))
  sound g hg := (h.parts hc hin (by omega)).sound
  flying g hg := (h.parts hc hin (by omega)).flying
  runs g hg := by
    obtain ⟨status, t', hrun⟩ := h.runs (pauses cues + g) (by omega)
    rw [(h.parts hc hin (by omega)).run, if_neg (by omega)] at hrun
    exact ⟨status, t', hrun⟩
  carried g hg id hid := by
    have hnext : pauses cues + g + 1 < n := by omega
    have hn : pauses cues + (g + 1) < n := hnext
    have htends := (h.parts hc hin hn).tends
    obtain ⟨task, ht⟩ := (Agenda.stands_append.1 (h.stands_at hn)).2.live hid
    have hcarried := h.carried (pauses cues + g) hnext id (by simp [hid])
    rw [(h.parts hc hin (by omega)).run, if_neg (by omega)] at hcarried
    exact (htends.get? ht fun hm => hd id hm hid).trans (ht.symm.trans hcarried)
  stands hn :=
    have hn : pauses cues + 0 < n := by omega
    (h.parts hc hin hn).tends.stands (Agenda.stands_append.1 (h.stands_at hn)).2
  fresh hn id hid := by
    have hn : pauses cues + 0 < n := by omega
    obtain ⟨task, ht, hfresh⟩ := (Agenda.fresh_append.1 (h.fresh (Nat.zero_lt_of_lt hn))).2 id hid
    have hheld := h.held hc hd hin hn (Nat.le_refl _) hid
    have htends := (h.parts hc hin hn).tends
    exact ⟨task, htends.get? (hheld.trans ht) fun hm => hd id hm hid, hfresh⟩

include h hc hin in
theorem inTime (hf : f < n)
    (hmore : ∀ g < n - pauses cues, InTime p fuel B more g
      (verdict cues (pauses cues + g) (s (pauses cues + g)))
      (between p fuel H s t (pauses cues + g))) :
    InTime p fuel (H.append B) (cues ++ more.map (Cue.later (pauses cues))) f (s f) (t f) := by
  have hwhole := (h.parts hc hin hf).run
  have hlog := (h.parts hc hin hf).log
  obtain ⟨⟨t₁, hanswer, hbullet⟩, hcalls⟩ := hin f hf
  have hmiddle : between p fuel H s t f = t₁ := by rw [between, hanswer]; rfl
  by_cases hp : f < pauses cues
  · rw [if_pos hp] at hwhole hlog
    have hnone : (cues ++ more.map (Cue.later (pauses cues))).filter (Cue.covers f) =
        cues.filter (Cue.covers f) := by
      rw [List.filter_append, filter_later_of_lt hp, List.append_nil]
    refine ⟨⟨t₁, ?_, by rw [hnone]; exact hbullet⟩, ?_⟩
    · rw [hwhole, hmiddle, verdict, if_pos]
      rw [pauses_append]
      omega
    · rw [hnone, hlog, List.append_nil]
      exact hcalls
  · obtain ⟨g, rfl⟩ := Nat.exists_eq_add_of_le (Nat.le_of_not_lt hp)
    obtain ⟨⟨t₂, hanswer₂, hbullet₂⟩, hcalls₂⟩ := hmore g (by omega)
    rw [if_neg hp] at hwhole hlog
    have hsplit : (cues ++ more.map (Cue.later (pauses cues))).filter
        (Cue.covers (pauses cues + g)) = cues.filter (Cue.covers (pauses cues + g)) ++
          (more.filter (Cue.covers g)).map (Cue.later (pauses cues)) := by
      rw [List.filter_append, filter_later]
    refine ⟨⟨t₂, ?_, ?_⟩, ?_⟩
    · rw [hwhole, hanswer₂, verdict_append]
    · rw [hsplit, List.foldl_append, ← hbullet, ← hmiddle, hbullet₂, List.foldl_map]
      rfl
    · rw [hsplit, hlog, List.filter_append]
      refine List.rel_append hcalls ?_
      rw [List.forall₂_map_left_iff]
      exact hcalls₂.imp fun _ _ hc => hc.later

end Compose

end Frames

/-- What is run in order is scheduled if each part is. -/
theorem Scheduled.append {c : TaskId} (hH : Scheduled p H) (hB : Scheduled p B)
    (hc : H.roots = [c]) (hd : ∀ id ∈ H.ids, id ∉ B.ids) : Scheduled p (H.append B) := by
  intro fuel n s t h
  obtain ⟨cues, hleaves, htimed, hin⟩ := hH fuel n s t (h.head hc hd)
  obtain ⟨more, hleaves', htimed', hmore⟩ := hB _ _ _ _ (h.tail hc hd hin)
  refine ⟨cues ++ more.map (Cue.later (pauses cues)), ?_, ?_, ?_⟩
  · rw [List.map_append, Agenda.leaves_append, hleaves, ← hleaves', List.map_map]
    rfl
  · refine htimed.append ?_
    rw [Nat.zero_add]
    exact htimed'.later
  · exact fun f hf => h.inTime hc hin hf hmore

theorem scheduled_nil (p : Pattern) : Scheduled p .nil := by
  intro fuel n s t _
  refine ⟨[], rfl, trivial, fun f _ => ⟨⟨t f, ?_, rfl⟩, .nil⟩⟩
  rfl

section Leaf

variable {g : Gauge} {task : Task} {status : Status} {t₀ t' : Turn}

/-- A task that is no group runs nothing but itself. -/
theorem logTask_leaf (ht : t₀.tasks.get? id = some task) (hl : task.kind.isLeaf = true) :
    logTask p (fuel + 1) id t₀ = [⟨id, t₀, answer (runTask p (fuel + 1) id t₀),
      state (runTask p (fuel + 1) id t₀)⟩] := by
  rw [logTask, logWithin, ht]
  simp only
  split
  · rfl
  · unfold logKind
    cases hk : task.kind <;> rw [hk] at hl <;> first | rfl | cases hl

theorem isLeaf_call (ht : t₀.tasks.get? id = some task) (r : Except PatternError Status) :
    Call.isLeaf ⟨id, t₀, r, t'⟩ = task.kind.isLeaf := by
  simp only [Call.isLeaf, ht]

theorem inTime_finished {s : Status} (hf : t₀.tasks.isFinished id = true) (hg : g.span ≤ f) :
    InTime p fuel (.leaf id .nil) [⟨id, 0, g⟩] f s t₀ := by
  have hnone : [(⟨id, 0, g⟩ : Cue)].filter (Cue.covers f) = [] := by
    rw [filter_single, if_neg (Nat.not_lt_of_le hg)]
  have hs : verdict [⟨id, 0, g⟩] f s = s := by
    have := g.delay_lt
    rw [verdict_single, if_neg (by omega), if_neg (by omega)]
  refine ⟨⟨t₀, ?_, by rw [hnone]; rfl⟩, ?_⟩
  · rw [Agenda.roots, Agenda.roots, runSequence_of_finished hf, hs]
    rfl
  · rw [hnone, Agenda.roots, Agenda.roots, logSequence, if_pos hf]
    exact .nil

/-- A task that is run alone answers for the sequence. -/
theorem runSequence_single {s : Status} (hf : t₀.tasks.isFinished id = false)
    (hr : runTask p fuel id t₀ = .ok status t') (hv : t'.bullet.vanished = false) :
    runSequence (runTask p fuel) [id] s t₀ =
        .ok (if status = .paused then .paused else status.after s) t' ∧
      logSequence (runTask p fuel) (logTask p fuel) [id] t₀ = logTask p fuel id t₀ := by
  by_cases hp : status = .paused
  · subst hp
    rw [runSequence_of_paused hf hr]
    simp [logSequence, hf, hr]
  · rw [runSequence_of_next hf hr hp hv, if_neg hp]
    refine ⟨rfl, ?_⟩
    cases status with
    | paused => exact absurd rfl hp
    | ongoing => simp [logSequence, hf, hr]
    | ended => simp [logSequence, hf, hr]

theorem inTime_advanced {s : Status} (ht : t₀.tasks.get? id = some task)
    (hl : task.kind.isLeaf = true) (hf : task.isFinished = false)
    (hv : t'.bullet.vanished = false) (hg : f < g.span)
    (hr : runTask p fuel id t₀ = .ok status t') (hadv : Advanced g f id t₀ status t')
    (hfirst : f = 0 → gauge p task t₀ = g) :
    InTime p fuel (.leaf id .nil) [⟨id, 0, g⟩] f s t₀ := by
  obtain ⟨rfl, hbullet, _⟩ := hadv
  obtain ⟨hrun, hlog⟩ :=
    runSequence_single (s := s) ((Arena.isFinished_of_live ht).trans hf) hr hv
  have hone : [(⟨id, 0, g⟩ : Cue)].filter (Cue.covers f) = [⟨id, 0, g⟩] := by
    rw [filter_single, if_pos hg]
  refine ⟨⟨t', ?_, by rw [hone]; exact hbullet⟩, ?_⟩
  · rw [Agenda.roots, Agenda.roots, hrun, verdict_single, Gauge.status]
    by_cases hd : f < g.delay
    · simp [hd]
    · by_cases hlast : f + 1 < g.span <;> simp [hd, hlast, Status.after]
  · cases fuel with
    | zero => cases hr
    | succ fuel =>
      rw [hone, Agenda.roots, Agenda.roots, hlog, logTask_leaf ht hl, hr, List.filter_cons,
        isLeaf_call ht, hl]
      refine .cons ⟨rfl, ?_, hbullet, fun h => ⟨task, ht, hfirst h⟩⟩ .nil
      rfl

/-- A frame in which the leaf is run leaves it one frame further on. -/
theorem steps_advanced {s : Status} {x : Status} {t₁ : Turn}
    (ht : t₀.tasks.get? id = some task) (hl : task.kind.isLeaf = true)
    (hf : task.isFinished = false) (hv : t₀.bullet.vanished = false) (hg : f < g.span)
    (hx : runSequence (runTask p fuel) [id] s t₀ = .ok x t₁)
    (hadv : ∀ status t', runTask p fuel id t₀ = .ok status t' → Advanced g f id t₀ status t')
    (hfirst : f = 0 → gauge p task t₀ = g) :
    InTime p fuel (.leaf id .nil) [⟨id, 0, g⟩] f s t₀ ∧
      ∃ task', t₁.tasks.get? id = some task' ∧ task'.Worked g (f + 1) := by
  have hrunning : t₀.tasks.isFinished id = false := (Arena.isFinished_of_live ht).trans hf
  cases hr : runTask p fuel id t₀ with
  | error e t' =>
    rw [runSequence_of_error hrunning hr] at hx
    cases hx
  | ok status t' =>
    have hstep := hadv status t' hr
    have hv' : t'.bullet.vanished = false := by rw [hstep.2.1, Gauge.vanished_push, hv]
    rw [(runSequence_single hrunning hr hv').1] at hx
    cases hx
    exact ⟨inTime_advanced ht hl hf hv' hg hr hstep hfirst, hstep.2.2⟩

theorem scheduled_leaf (p : Pattern) (id : TaskId) : Scheduled p (.leaf id .nil) := by
  intro fuel n s t h
  rcases Nat.eq_zero_or_pos n with rfl | hn
  · exact ⟨[⟨id, 0, .instant⟩], rfl, ⟨rfl, trivial⟩, fun f hf => absurd hf (Nat.not_lt_zero f)⟩
  obtain ⟨⟨task, ht, hl⟩, _⟩ := h.stands hn
  obtain ⟨task', ht', hfresh⟩ := h.fresh hn id List.mem_cons_self
  rw [ht, Option.some.injEq] at ht'
  subst ht'
  let g := gauge p task (t 0)
  have key (f : Nat) (hf : f < n) : InTime p fuel (.leaf id .nil) [⟨id, 0, g⟩] f (s f) (t f) ∧
      ∃ task', (state (runSequence (runTask p fuel) [id] (s f) (t f))).tasks.get? id = some task' ∧
        task'.Worked g (f + 1) := by
    induction f with
    | zero =>
      obtain ⟨x, t₁, hx⟩ := h.runs 0 hf
      have hx' : runSequence (runTask p fuel) [id] (s 0) (t 0) = .ok x t₁ := hx
      rw [hx']
      exact steps_advanced ht hl hfresh.pending (h.flying 0 hf) (Nat.zero_lt_of_lt g.delay_lt) hx'
        (fun _ _ hr => advanced_first ht hl hfresh.kind hfresh.pending (h.sound 0 hf) hr)
        fun _ => rfl
    | succ f ih =>
      obtain ⟨_, task', ht', hw⟩ := ih (Nat.lt_of_succ_lt hf)
      have hnow : (t (f + 1)).tasks.get? id = some task' :=
        (h.carried f hf id List.mem_cons_self).trans ht'
      obtain ⟨⟨task'', ht'', hl'⟩, _⟩ := h.stands_at hf
      rw [hnow, Option.some.injEq] at ht''
      subst ht''
      obtain ⟨x, t₁, hx⟩ := h.runs (f + 1) hf
      have hx' : runSequence (runTask p fuel) [id] (s (f + 1)) (t (f + 1)) = .ok x t₁ := hx
      by_cases hg : g.span ≤ f + 1
      · have hover : (t (f + 1)).tasks.isFinished id = true := by
          rw [Arena.isFinished_of_live hnow, hw.done, decide_eq_true hg]
        refine ⟨inTime_finished hover hg, task', ?_, hw.still hg⟩
        rw [runSequence_of_finished hover]
        exact hnow
      · have hrunning : task'.isFinished = false := by rw [hw.done, decide_eq_false hg]
        rw [hx']
        exact steps_advanced hnow hl' hrunning (h.flying _ hf) (Nat.lt_of_not_le hg) hx'
          (fun _ _ hr => advanced_next hnow hw (Nat.lt_of_not_le hg) hr) nofun
  exact ⟨[⟨id, 0, g⟩], rfl, ⟨rfl, trivial⟩, fun f hf => (key f hf).1⟩

end Leaf

section Group

variable {k : Nat} {below : Agenda} {task : Task} {x : Status} {t₀ t₁ : Turn}

/-- What a frame of a group is while it is not over: a frame of what is below it, and what the group
answers for it. -/
structure GroupFrame (p : Pattern) (k : Nat) (id : TaskId) (below : Agenda) (s : Status)
    (t₀ t₁ : Turn) (status : Status) (t' : Turn) : Prop where
  inner : runSequence (runTask p k) below.roots .ended (t₀.start id) = .ok status t'
  run : runSequence (runTask p (k + 1)) [id] s t₀ =
    .ok (if status = .paused then .paused else status.after s) t₁
  close : t₁ = t'.close id (.ok status)
  log : logSequence (runTask p (k + 1)) (logTask p (k + 1)) [id] t₀ = ⟨id, t₀, .ok status, t₁⟩ ::
    logSequence (runTask p k) (logTask p k) below.roots (t₀.start id)

/-- While a group is not over, a frame of it is a frame of what is below it. -/
theorem group_step {s : Status} (ht : t₀.tasks.get? id = some task)
    (hg : task.kind.isGroup = true) (hc : task.children = below.roots)
    (hf : task.isFinished = false)
    (hx : runSequence (runTask p (k + 1)) [id] s t₀ = .ok x t₁)
    (hv : t₁.bullet.vanished = false) :
    ∃ status t', GroupFrame p k id below s t₀ t₁ status t' := by
  have hrunning : t₀.tasks.isFinished id = false := (Arena.isFinished_of_live ht).trans hf
  have hkind : runKind p (runTask p k) id task (t₀.start id) =
      runSequence (runTask p k) below.roots .ended (t₀.start id) := by
    unfold runKind
    rw [hc]
    cases hk : task.kind <;> rw [hk] at hg <;> first | rfl | cases hg
  have hlog : logWithin p (runTask p k) (logTask p k) id t₀ =
      logSequence (runTask p k) (logTask p k) below.roots (t₀.start id) := by
    simp only [logWithin, ht, hf, Bool.false_eq_true, if_false]
    unfold logKind
    rw [hc]
    cases hk : task.kind <;> rw [hk] at hg <;> first | rfl | cases hg
  have htask := runTask_of_unfinished (p := p) k ht hf
  rw [hkind] at htask
  cases hr : runSequence (runTask p k) below.roots .ended (t₀.start id) with
  | error e t' =>
    rw [hr] at htask
    rw [runSequence_of_error hrunning htask] at hx
    cases hx
  | ok status t' =>
    rw [hr] at htask
    have htask : runTask p (k + 1) id t₀ = .ok status (t'.close id (.ok status)) := htask
    have hv' : (t'.close id (.ok status)).bullet.vanished = false := by
      by_cases hp : status = .paused
      · subst hp
        rw [runSequence_of_paused hrunning htask] at hx
        cases hx
        exact hv
      · cases hv₁ : (t'.close id (.ok status)).bullet.vanished with
        | false => rfl
        | true =>
          rw [runSequence_of_vanished hrunning htask hp hv₁] at hx
          cases hx
          rw [hv] at hv₁
          cases hv₁
    obtain ⟨hrun, hsingle⟩ := runSequence_single (s := s) hrunning htask hv'
    rw [hrun] at hx
    cases hx
    refine ⟨status, t', hr, hrun, rfl, ?_⟩
    rw [hsingle, logTask, htask, hlog]
    rfl

variable (h : Frames p (k + 1) (.group id below .nil) n s t)

include h in
theorem Frames.group_task (hf : f < n) : ∃ task, (t f).tasks.get? id = some task ∧
    task.kind.isGroup = true ∧ task.children = below.roots ∧ below.Stands (t f).tasks := by
  obtain ⟨⟨task, ht, hg, hc⟩, hbelow, _⟩ := h.stands_at hf
  exact ⟨task, ht, hg, hc, hbelow⟩

include h in
theorem Frames.group_frame (hf : f < n) (hb : (t f).tasks.isFinished id = false) :
    ∃ status t' t₁, GroupFrame p k id below (s f) (t f) t₁ status t' := by
  obtain ⟨task, ht, hg, hc, _⟩ := h.group_task hf
  obtain ⟨x, t₁, hx⟩ := h.runs f hf
  have htends := h.tends hf (h.stands_at hf)
  have hx' : runSequence (runTask p (k + 1)) [id] (s f) (t f) = .ok x t₁ := hx
  rw [hx] at htends
  obtain ⟨status, t', hframe⟩ := group_step ht hg hc ((Arena.isFinished_of_live ht).symm.trans hb)
    hx' (htends.vanished.trans (h.flying f hf))
  exact ⟨status, t', t₁, hframe⟩

include h in
/-- While the group is at work, what is below it is run frame by frame. -/
theorem Frames.inner (hid : id ∉ below.ids) {m : Nat} (hm : m ≤ n)
    (hbusy : ∀ f < m, (t f).tasks.isFinished id = false) :
    Frames p k below m (fun _ => .ended) (fun f => (t f).start id) where
  status _ _ := nofun
  sound f hf := (evolves_start id (h.sound f (by omega))).sound
  flying f hf := h.flying f (by omega)
  runs f hf := by
    obtain ⟨status, t', _, hframe⟩ := h.group_frame (by omega) (hbusy f hf)
    exact ⟨status, t', hframe.inner⟩
  carried f hf c hcm := by
    obtain ⟨status, t', t₁, hframe⟩ := h.group_frame (f := f) (by omega) (hbusy f (by omega))
    have hne : c ≠ id := fun he => hid (he ▸ hcm)
    have hcarried := h.carried f (by omega) c (by simp [Agenda.ids, hcm])
    rw [hframe.inner]
    rw [Agenda.roots, Agenda.roots, hframe.run] at hcarried
    rw [get?_start_of_ne hne, hcarried, hframe.close]
    exact get?_close_of_ne hne _
  stands hn := by
    obtain ⟨task, ht, _, _, hbelow⟩ := h.group_task (f := 0) (by omega)
    exact (tends_start ht).stands hbelow
  fresh hn c hcm := by
    have hne : c ≠ id := fun he => hid (he ▸ hcm)
    rw [get?_start_of_ne hne]
    exact h.fresh (by omega) c (by simp [Agenda.ids, hcm])

include h in
/-- A group is over after a frame exactly if it has answered so. -/
theorem Frames.group_over (hid : id ∉ below.ids) (hf : f + 1 < n)
    (hb : (t f).tasks.isFinished id = false) {status : Status} {t' t₁ : Turn}
    (hframe : GroupFrame p k id below (s f) (t f) t₁ status t') :
    (t (f + 1)).tasks.isFinished id = (status == .ended) := by
  obtain ⟨task, ht, _, _, hbelow⟩ := h.group_task (f := f) (by omega)
  have hstart := get?_start ht
  have hsound := (evolves_start id (h.sound f (by omega))).sound
  have htends := (logged_sequence (logged_task p k) below.roots .ended ((t f).start id)).tends
    hsound ((tends_start ht).stands hbelow)
  rw [hframe.inner] at htends
  have hget := get?_close (htends.get? hstart hid) status
  have hcarried := h.carried f hf id (by simp [Agenda.ids])
  rw [Agenda.roots, Agenda.roots, hframe.run] at hcarried
  have hnow : (t (f + 1)).tasks.get? id = _ := hcarried.trans (hframe.close ▸ hget)
  rw [Arena.isFinished_of_live hnow]
  have hpending : task.isFinished = false := (Arena.isFinished_of_live ht).symm.trans hb
  cases status with
  | ended => exact isFinished_finished
  | ongoing => exact isFinished_running hpending
  | paused => exact isFinished_running hpending

include h in
theorem Frames.group_stays (hf : f + 1 < n) (hb : (t f).tasks.isFinished id = true) :
    (t (f + 1)).tasks.isFinished id = true := by
  obtain ⟨task, ht, _⟩ := h.group_task (f := f) (by omega)
  have hcarried := h.carried f hf id (by simp [Agenda.ids])
  rw [Agenda.roots, Agenda.roots, runSequence_of_finished hb] at hcarried
  have hnow : (t (f + 1)).tasks.get? id = some task := hcarried.trans ht
  rw [Arena.isFinished_of_live hnow, ← Arena.isFinished_of_live ht, hb]

include h in
/-- A group is at work up to some frame, and over from there on. -/
theorem Frames.group_cut : ∃ m ≤ n, (∀ f < m, (t f).tasks.isFinished id = false) ∧
    ∀ f, m ≤ f → f < n → (t f).tasks.isFinished id = true := by
  by_cases hover : ∃ f, f < n ∧ (t f).tasks.isFinished id = true
  · obtain ⟨hlt, hfirst⟩ := Nat.find_spec hover
    refine ⟨Nat.find hover, Nat.le_of_lt hlt, ?_, ?_⟩
    · intro f hf
      have hbefore : f < n := by omega
      have hnot := Nat.find_min hover hf
      simpa [hbefore] using hnot
    · intro f hf hfn
      induction f, hf using Nat.le_induction with
      | base => exact hfirst
      | succ f _ ih => exact h.group_stays hfn (ih (Nat.lt_of_succ_lt hfn))
  · refine ⟨n, Nat.le_refl n, ?_, fun f hf hfn => absurd hfn (Nat.not_lt_of_le hf)⟩
    intro f hf
    simpa [hf] using (not_exists.1 hover) f

/-- A frame of a group that is at work goes by the cues of what is below it. -/
theorem GroupFrame.inTime {cues : List Cue} {s status : Status} {t' : Turn}
    (hframe : GroupFrame p k id below s t₀ t₁ status t') (ht : t₀.tasks.get? id = some task)
    (hg : task.kind.isGroup = true) (hin : InTime p k below cues f .ended (t₀.start id)) :
    InTime p (k + 1) (.group id below .nil) cues f s t₀ := by
  obtain ⟨⟨t₂, hanswer, hbullet⟩, hcalls⟩ := hin
  rw [hframe.inner, EStateM.Result.ok.injEq] at hanswer
  obtain ⟨rfl, rfl⟩ := hanswer
  refine ⟨⟨t₁, ?_, ?_⟩, ?_⟩
  · rw [Agenda.roots, Agenda.roots, hframe.run, verdict_after]
  · rw [hframe.close, bullet_close, hbullet]
    rfl
  · rw [Agenda.roots, Agenda.roots, hframe.log, List.filter_cons, isLeaf_call ht]
    have hl : task.kind.isLeaf = false := by
      cases hk : task.kind <;> rw [hk] at hg <;> first | rfl | cases hg
    rw [hl]
    exact hcalls

theorem scheduled_group (hB : Scheduled p below) (hid : id ∉ below.ids) :
    Scheduled p (.group id below .nil) := by
  intro fuel n s t h
  cases fuel with
  | zero =>
    -- without fuel the group fails at once, so there is no frame
    have hn : n = 0 := by
      by_contra hpos
      have hpos : 0 < n := Nat.pos_of_ne_zero hpos
      obtain ⟨task, ht, hfresh⟩ := h.fresh hpos id List.mem_cons_self
      obtain ⟨x, t₁, hx⟩ := h.runs 0 hpos
      have hrunning := (Arena.isFinished_of_live ht).trans hfresh.pending
      have herror : runTask p 0 id (t 0) = .error (.recursionLimit maxNestDepth) (t 0) := rfl
      rw [Agenda.roots, Agenda.roots, runSequence_of_error hrunning herror] at hx
      cases hx
    subst hn
    have hnone {f : Nat} (hf : f < 0) : False := Nat.not_lt_zero f hf
    obtain ⟨cues, hleaves, htimed, _⟩ := hB 0 0 s t
      ⟨fun _ hf => (hnone hf).elim, fun _ hf => (hnone hf).elim, fun _ hf => (hnone hf).elim,
        fun _ hf => (hnone hf).elim, fun _ hf => (hnone hf).elim, fun hf => (hnone hf).elim,
        fun hf => (hnone hf).elim⟩
    exact ⟨cues, by simpa [Agenda.leaves] using hleaves, htimed, fun _ hf => (hnone hf).elim⟩
  | succ k =>
    obtain ⟨m, hm, hbusy, hover⟩ := h.group_cut
    obtain ⟨cues, hleaves, htimed, hin⟩ := hB k m _ _ (h.inner hid hm hbusy)
    refine ⟨cues, by simpa [Agenda.leaves] using hleaves, htimed, fun f hf => ?_⟩
    obtain ⟨task, ht, hg, _⟩ := h.group_task hf
    by_cases hlt : f < m
    · obtain ⟨status, t', t₁, hframe⟩ := h.group_frame hf (hbusy f hlt)
      exact hframe.inTime ht hg (hin f hlt)
    · have hdone := hover f (Nat.le_of_not_lt hlt) hf
      -- the last frame in which the group was at work has left nothing to be run
      have hlast : ∃ e < f, verdict cues e .ended = .ended := by
        cases m with
        | zero =>
          obtain ⟨task', ht', hfresh⟩ := h.fresh (Nat.zero_lt_of_lt hf) id List.mem_cons_self
          have hfirst := hover 0 (Nat.le_refl 0) (Nat.zero_lt_of_lt hf)
          rw [Arena.isFinished_of_live ht', hfresh.pending] at hfirst
          cases hfirst
        | succ e =>
          have hnext : e + 1 < n := by omega
          obtain ⟨status, t', t₁, hframe⟩ := h.group_frame (f := e) (by omega) (hbusy e (by omega))
          obtain ⟨⟨t₂, hanswer, _⟩, _⟩ := hin e (by omega)
          have hend := h.group_over hid hnext (hbusy e (by omega)) hframe
          rw [hframe.inner, EStateM.Result.ok.injEq] at hanswer
          rw [hover (e + 1) (Nat.le_refl _) hnext] at hend
          exact ⟨e, by omega, hanswer.1.symm.trans (by simpa using hend.symm)⟩
      obtain ⟨e, he, hended⟩ := hlast
      obtain ⟨hverdict, hnone⟩ :
          verdict cues f (s f) = s f ∧ cues.filter (Cue.covers f) = [] := stays_ended hended he
      refine ⟨⟨t f, ?_, by rw [hnone]; rfl⟩, ?_⟩
      · rw [Agenda.roots, Agenda.roots, runSequence_of_finished hdone, hverdict]
        rfl
      · rw [hnone, Agenda.roots, Agenda.roots, logSequence, if_pos hdone]
        exact .nil

end Group

/-- Every agenda without a task twice is scheduled. -/
theorem scheduled (p : Pattern) (A : Agenda) (hn : A.ids.Nodup) : Scheduled p A := by
  induction A with
  | nil => exact scheduled_nil p
  | leaf id next ih =>
    obtain ⟨hid, hnext⟩ := List.nodup_cons.1 hn
    refine (scheduled_leaf p id).append (B := next) (ih hnext) rfl ?_
    intro k hk
    rwa [List.mem_singleton.1 hk]
  | group id below next ihb ih =>
    obtain ⟨hid, hrest⟩ := List.nodup_cons.1 hn
    obtain ⟨hbelow, hnext, hdis⟩ := List.nodup_append.1 hrest
    rw [List.mem_append, not_or] at hid
    refine (scheduled_group (ihb hbelow) hid.1).append (B := next) (ih hnext) rfl ?_
    intro k hk hmem
    rw [Agenda.ids, List.mem_cons, Agenda.ids, List.append_nil] at hk
    rcases hk with rfl | hk
    · exact hid.2 hmem
    · exact hdis k hk k hmem rfl

end Barrage.Turn

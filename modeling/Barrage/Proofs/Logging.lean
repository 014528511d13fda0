import Barrage.Proofs.Roots

namespace Barrage.Turn

variable {p : Pattern} {run : TaskId → Run Status} {log : TaskId → Turn → List Call} {id : TaskId}
  {ids : List TaskId} {task : Task} {t t' : Turn} {c : Call} {calls more : List Call}

theorem Logged.ran {fuel : Nat} {job : Job} {x : EStateM.Result PatternError Turn Status}
    {status : Status} (h : Logged p fuel job t calls x) (hx : x = .ok status t') :
    Runs p fuel job t calls (.ok status) t' := by
  subst hx
  exact h

section Sequence

theorem logSequence_of_finished (hf : t.tasks.isFinished id = true) :
    logSequence run log (id :: ids) t = logSequence run log ids t := by
  rw [logSequence]
  simp only [hf, if_true]

theorem logSequence_of_error {e : PatternError} (hf : t.tasks.isFinished id = false)
    (hr : run id t = .error e t') : logSequence run log (id :: ids) t = log id t := by
  rw [logSequence, hr]
  simp only [hf, Bool.false_eq_true, if_false, List.append_nil]

theorem logSequence_of_paused (hf : t.tasks.isFinished id = false)
    (hr : run id t = .ok .paused t') : logSequence run log (id :: ids) t = log id t := by
  rw [logSequence, hr]
  simp only [hf, Bool.false_eq_true, if_false, List.append_nil]

theorem logSequence_of_ran {answer : Status} (hf : t.tasks.isFinished id = false)
    (hr : run id t = .ok answer t') (ha : answer ≠ .paused) :
    logSequence run log (id :: ids) t =
      log id t ++ if t'.bullet.vanished then [] else logSequence run log ids t' := by
  rw [logSequence, hr]
  cases answer with
  | paused => exact absurd rfl ha
  | ongoing => simp only [hf, Bool.false_eq_true, if_false]
  | ended => simp only [hf, Bool.false_eq_true, if_false]

variable (run log ids) in
/-- The run of a list of tasks goes on after the first, or it stops with it. -/
theorem sequence_cases (hf : t.tasks.isFinished id = false) :
    (∃ answer t', run id t = .ok answer t' ∧ answer ≠ .paused ∧ t'.bullet.vanished = false ∧
      logSequence run log (id :: ids) t = log id t ++ logSequence run log ids t' ∧
      ∀ status, runSequence run (id :: ids) status t =
        runSequence run ids (answer.after status) t') ∨
    logSequence run log (id :: ids) t = log id t ∧
      ∀ status, state (runSequence run (id :: ids) status t) = state (run id t) ∧
        ∀ t', run id t = .ok .ended t' → runSequence run (id :: ids) status t = .ok .ended t' := by
  cases hr : run id t with
  | error e t' =>
    refine .inr ⟨logSequence_of_error hf hr, ?_⟩
    intro status
    rw [runSequence_of_error hf hr]
    exact ⟨rfl, nofun⟩
  | ok answer t' =>
    by_cases ha : answer = .paused
    · subst ha
      refine .inr ⟨logSequence_of_paused hf hr, ?_⟩
      intro status
      rw [runSequence_of_paused hf hr]
      exact ⟨rfl, nofun⟩
    · have hlog : logSequence run log (id :: ids) t =
          log id t ++ if t'.bullet.vanished then [] else logSequence run log ids t' :=
        logSequence_of_ran hf hr ha
      cases hv : t'.bullet.vanished with
      | true =>
        rw [hv, if_pos rfl, List.append_nil] at hlog
        refine .inr ⟨hlog, ?_⟩
        intro status
        rw [runSequence_of_vanished hf hr ha hv]
        refine ⟨rfl, ?_⟩
        intro t'' h
        cases h
        rfl
      | false =>
        rw [hv] at hlog
        exact .inl ⟨answer, t', rfl, ha, hv, hlog, fun status => runSequence_of_next hf hr ha hv⟩

end Sequence

section Bodies

variable {room left : Nat} {body : TaskId} {rest : List TaskId}

theorem dueBody_of_last (ht : (t.shed body).tasks.get? id = some task)
    (hl : left = 0 ∨ t.bullet.vanished = true) : dueBody p room id body left t = none := by
  have hv : ((t.shed body).countBody id task).bullet.vanished = t.bullet.vanished := rfl
  rw [dueBody, finishBody_of_some ht]
  simp only [hv]
  rw [if_pos (by simpa using hl)]

theorem dueBody_of_due (ht : (t.shed body).tasks.get? id = some task)
    (hl : ¬(left = 0 ∨ t.bullet.vanished = true)) :
    dueBody p room id body left t =
      match rebind p room id task t.bullet ((t.shed body).countBody id task) with
      | .error _ _ => none
      | .ok fresh t' => some (t'.adopt id fresh) := by
  have hv : ((t.shed body).countBody id task).bullet.vanished = t.bullet.vanished := rfl
  rw [dueBody, finishBody_of_some ht]
  simp only [hv]
  rw [if_neg (by simpa using hl)]
  rfl

theorem logBodies_of_stops (ht : t.tasks.get? id = some task) (hc : task.children = body :: rest)
    (hr : ∀ t', run body t ≠ .ok .ended t') :
    logBodies p run log room id (left + 1) t = log body t := by
  rw [logBodies, child?_zero ht hc]
  simp only
  cases hx : run body t with
  | error e t' => exact List.append_nil _
  | ok answer t' =>
    cases answer with
    | ended => exact absurd hx (hr t')
    | ongoing => exact List.append_nil _
    | paused => exact List.append_nil _

theorem logBodies_of_ended (ht : t.tasks.get? id = some task) (hc : task.children = body :: rest)
    (hr : run body t = .ok .ended t') :
    logBodies p run log room id (left + 1) t =
      log body t ++ match dueBody p room id body left t' with
        | some t => logBodies p run log room id left t
        | none => [] := by
  rw [logBodies, child?_zero ht hc]
  simp only
  generalize run body t = x at hr ⊢
  subst hr
  rfl

variable (p run log room left) in
/-- The run of the bodies of a `repeat` goes on with another one after the first, or it stops with
it. -/
theorem bodies_cases (ht : t.tasks.get? id = some task) (hc : task.children = body :: rest) :
    (∃ t₁ task' fresh t₂, run body t = .ok .ended t₁ ∧ t₁.bullet.vanished = false ∧
      (t₁.shed body).tasks.get? id = some task' ∧
      rebind p room id task' t₁.bullet ((t₁.shed body).countBody id task') = .ok fresh t₂ ∧
      logBodies p run log room id (left + 1) t =
        log body t ++ logBodies p run log room id left (t₂.adopt id fresh) ∧
      runBodies p run room id (left + 1) t = runBodies p run room id left (t₂.adopt id fresh)) ∨
    logBodies p run log room id (left + 1) t = log body t := by
  by_cases hr : ∃ t₁, run body t = .ok .ended t₁
  · obtain ⟨t₁, hr⟩ := hr
    have hlog : logBodies p run log room id (left + 1) t =
        log body t ++ match dueBody p room id body left t₁ with
          | some t => logBodies p run log room id left t
          | none => [] := logBodies_of_ended ht hc hr
    cases ht' : (t₁.shed body).tasks.get? id with
    | none =>
      rw [dueBody, finishBody_of_none ht', List.append_nil] at hlog
      exact .inr hlog
    | some task' =>
      by_cases hl : left = 0 ∨ t₁.bullet.vanished = true
      · rw [dueBody_of_last ht' hl, List.append_nil] at hlog
        exact .inr hlog
      · rw [dueBody_of_due ht' hl] at hlog
        cases hb : rebind p room id task' t₁.bullet ((t₁.shed body).countBody id task') with
        | error e t₂ =>
          simp only [hb, List.append_nil] at hlog
          exact .inr hlog
        | ok fresh t₂ =>
          simp only [hb] at hlog
          have hrun : runBodies p run room id (left + 1) t =
              runBodies p run room id left (t₂.adopt id fresh) := by
            rw [runBodies_of_ended ht hc hr, endBody_of_due ht' hl, hb]
          rw [not_or, Bool.not_eq_true] at hl
          exact .inl ⟨t₁, task', fresh, t₂, hr, hl.2, ht', hb, hlog, hrun⟩
  · exact .inr (logBodies_of_stops ht hc fun t' h => hr ⟨t', h⟩)

end Bodies

section Task

variable {fuel : Nat}

theorem logWithin_of_unfinished (ht : t.tasks.get? id = some task)
    (hf : task.isFinished = false) :
    logWithin p run log id t = logKind p run log id task (t.start id) := by
  simp only [logWithin, ht, hf, Bool.false_eq_true, if_false]

/-- Below a task that is over nothing is run. -/
theorem logWithin_of_finished (ht : t.tasks.get? id = some task) (hf : task.isFinished = true) :
    logWithin p run log id t = [] := by
  simp only [logWithin, ht, hf, if_true]

end Task

/-- `within` is what was run within the call, in this order. -/
def Call.Ran (p : Pattern) (c : Call) (within : List Call) : Prop :=
  ∃ fuel, logTask p fuel c.task c.before = c :: within

/-- What was run within each call comes right after it. -/
def Nested (p : Pattern) (calls : List Call) : Prop :=
  ∀ pre c post, calls = pre ++ c :: post → ∃ within rest, post = within ++ rest ∧ c.Ran p within

section Nested

theorem mem_or_split {α : Type} {l₁ l₂ pre post : List α} {x : α}
    (h : l₁ ++ l₂ = pre ++ x :: post) :
    (∃ rest, l₁ = pre ++ x :: rest ∧ post = rest ++ l₂) ∨
      ∃ more, l₂ = more ++ x :: post ∧ pre = l₁ ++ more := by
  rcases List.append_eq_append_iff.1 h with ⟨more, hpre, hl⟩ | ⟨rest, hl, hpost⟩
  · exact .inr ⟨more, hl, hpre⟩
  · cases rest with
    | nil => exact .inr ⟨[], by simpa using hpost.symm, by simpa using hl.symm⟩
    | cons y rest =>
      rw [List.cons_append, List.cons.injEq] at hpost
      exact .inl ⟨rest, hpost.1 ▸ hl, hpost.2⟩

theorem Nested.nil : Nested p [] := by
  intro pre c post h
  simp at h

theorem Nested.append (h₁ : Nested p calls) (h₂ : Nested p more) : Nested p (calls ++ more) := by
  intro pre c post h
  rcases mem_or_split h with ⟨rest, hl, rfl⟩ | ⟨front, hr, rfl⟩
  · obtain ⟨within, last, rfl, hran⟩ := h₁ pre c rest hl
    exact ⟨within, last ++ more, List.append_assoc _ _ _, hran⟩
  · exact h₂ front c post hr

theorem Nested.cons (hc : c.Ran p calls) (h : Nested p calls) : Nested p (c :: calls) := by
  intro pre d post hd
  cases pre with
  | nil =>
    cases hd
    exact ⟨calls, [], (List.append_nil _).symm, hc⟩
  | cons e pre =>
    rw [List.cons_append, List.cons.injEq] at hd
    exact h pre d post hd.2

theorem nested_logSequence (h : ∀ id t, Nested p (log id t)) (ids : List TaskId) (t : Turn) :
    Nested p (logSequence run log ids t) := by
  induction ids generalizing t with
  | nil => exact .nil
  | cons id ids ih =>
    cases hf : t.tasks.isFinished id with
    | true =>
      rw [logSequence_of_finished hf]
      exact ih t
    | false =>
      rcases sequence_cases run log ids hf with
        ⟨answer, t', _, _, _, hlog, _⟩ | ⟨hlog, _⟩
      · rw [hlog]
        exact (h id t).append (ih t')
      · rw [hlog]
        exact h id t

theorem nested_logBodies (h : ∀ id t, Nested p (log id t)) (room : Nat) (id : TaskId)
    (left : Nat) (t : Turn) : Nested p (logBodies p run log room id left t) := by
  induction left generalizing t with
  | zero => exact .nil
  | succ left ih =>
    cases hb : t.tasks.child? id 0 with
    | none =>
      rw [logBodies, hb]
      exact .nil
    | some body =>
      obtain ⟨task, ht, hchild⟩ := Option.bind_eq_some_iff.1 hb
      obtain ⟨rest, hc⟩ : ∃ rest, task.children = body :: rest := by
        cases hc : task.children with
        | nil => simp [hc] at hchild
        | cons first rest =>
          simp only [hc, List.getElem?_cons_zero, Option.some.injEq] at hchild
          exact ⟨rest, by rw [hchild]⟩
      rcases bodies_cases p run log room left ht hc with
        ⟨_, _, _, _, _, _, _, _, hlog, _⟩ | hlog
      · rw [hlog]
        exact (h body t).append (ih _)
      · rw [hlog]
        exact h body t

/-- The log of a task goes through the tasks below it in one piece each. -/
theorem nested_logTask (p : Pattern) (fuel : Nat) (id : TaskId) (t : Turn) :
    Nested p (logTask p fuel id t) := by
  induction fuel generalizing id t with
  | zero => exact .cons ⟨0, rfl⟩ .nil
  | succ fuel ih =>
    rw [logTask]
    refine .cons ⟨fuel + 1, rfl⟩ ?_
    unfold logWithin
    split
    · exact .nil
    · split
      · exact .nil
      · unfold logKind
        split
        · exact nested_logSequence ih _ _
        · exact nested_logSequence ih _ _
        · split
          · exact nested_logBodies ih _ _ _ _
          · exact .nil
        · exact .nil

end Nested
end Barrage.Turn

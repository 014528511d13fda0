import Barrage.Proofs.Agenda

namespace Barrage

/-- When a leaf is run for the first time, in frames that are counted from zero, and how it works
from then on. -/
structure Cue where
  leaf : TaskId
  onset : Nat
  gauge : Gauge

namespace Cue

/-- The first frame in which the leaf is not run any more. -/
def finish (c : Cue) : Nat := c.onset + c.gauge.span

def covers (f : Nat) (c : Cue) : Bool := decide (c.onset ≤ f ∧ f < c.finish)

def later (n : Nat) (c : Cue) : Cue := { c with onset := n + c.onset }

def push (b : Bullet) (c : Cue) : Bullet := c.gauge.push b

@[simp] theorem onset_later (n : Nat) (c : Cue) : (c.later n).onset = n + c.onset := rfl

@[simp] theorem finish_later (n : Nat) (c : Cue) : (c.later n).finish = n + c.finish :=
  Nat.add_assoc _ _ _

theorem covers_later (n f : Nat) (c : Cue) : (c.later n).covers (n + f) = c.covers f := by
  simp only [covers, onset_later, finish_later, decide_eq_decide]
  omega

end Cue

/-- The task that was run is a leaf. -/
def Turn.Call.isLeaf (c : Turn.Call) : Bool :=
  match c.before.tasks.get? c.task with
  | some task => task.kind.isLeaf
  | none => false

/-- The call is the run of the leaf in frame `f`. Its first run settles how it works. -/
structure Cue.Runs (p : Pattern) (f : Nat) (cue : Cue) (c : Turn.Call) : Prop where
  leaf : c.task = cue.leaf
  answer : c.answer = .ok (cue.gauge.status (f - cue.onset))
  bullet : c.after.bullet = cue.push c.before.bullet
  gauge : f = cue.onset → ∃ task, c.before.tasks.get? c.task = some task ∧
    Turn.gauge p task c.before = cue.gauge

namespace Timetable

/-- For how many frames the leaves hold up what follows them, one after the other. -/
def pauses (cues : List Cue) : Nat := (cues.map fun c => c.gauge.delay).sum

/-- From frame `n` on, each leaf begins when those before it hold it up no more. -/
def Timed : Nat → List Cue → Prop
  | _, [] => True
  | n, c :: cues => c.onset = n ∧ Timed (n + c.gauge.delay) cues

/-- Some leaf is run again after frame `f`. -/
def Going (cues : List Cue) (f : Nat) : Prop := ∃ c ∈ cues, f + 1 < c.finish

instance (cues : List Cue) (f : Nat) : Decidable (Going cues f) :=
  inferInstanceAs (Decidable (∃ c ∈ cues, f + 1 < c.finish))

/-- The number of frames after which nothing is left to be run: at least one more than are held up,
and all those in which changes push the bullet. -/
def finale (cues : List Cue) : Nat :=
  ((cues.filter fun c => c.gauge.isChange).map Cue.finish).foldr max (1 + pauses cues)

/-- What a sequence of tasks answers in frame `f` that began with `status`. -/
def verdict (cues : List Cue) (f : Nat) (status : Status) : Status :=
  if f < pauses cues then .paused else if Going cues f then .ongoing else status

variable {cue : Cue} {cues more : List Cue} {f n m : Nat}
  {status : Status}

@[simp] theorem pauses_nil : pauses [] = 0 := rfl

@[simp] theorem pauses_cons : pauses (cue :: cues) = cue.gauge.delay + pauses cues := by
  simp [pauses]

@[simp] theorem pauses_append : pauses (cues ++ more) = pauses cues + pauses more := by
  simp [pauses]

@[simp] theorem pauses_later : pauses (cues.map (Cue.later n)) = pauses cues := by
  rw [pauses, List.map_map]
  rfl

theorem Timed.append (h : Timed n cues) (h' : Timed (n + pauses cues) more) :
    Timed n (cues ++ more) := by
  induction cues generalizing n with
  | nil => exact h'
  | cons cue cues ih =>
    refine ⟨h.1, ih h.2 ?_⟩
    rwa [Nat.add_assoc, ← pauses_cons]

theorem Timed.later (h : Timed n cues) : Timed (m + n) (cues.map (Cue.later m)) := by
  induction cues generalizing n with
  | nil => trivial
  | cons cue cues ih =>
    refine ⟨congrArg (m + ·) h.1, ?_⟩
    rw [Nat.add_assoc]
    exact ih h.2

/-- No leaf holds up anything for longer than all of them do. -/
theorem Timed.onset_delay_le (h : Timed n cues) (hc : cue ∈ cues) :
    cue.onset + cue.gauge.delay ≤ n + pauses cues := by
  induction cues generalizing n with
  | nil => cases hc
  | cons first cues ih =>
    rw [pauses_cons]
    rcases List.mem_cons.1 hc with rfl | hc
    · rw [h.1]
      omega
    · have := ih h.2 hc
      omega

theorem lt_finale : m < finale cues ↔
    m < 1 + pauses cues ∨ ∃ c ∈ cues, c.gauge.isChange = true ∧ m < c.finish := by
  have key (l : List Nat) (b : Nat) : m < l.foldr max b ↔ m < b ∨ ∃ k ∈ l, m < k := by
    induction l with
    | nil => simp
    | cons k l ih =>
      rw [List.foldr_cons, lt_max_iff, ih, List.exists_mem_cons_iff]
      exact or_left_comm
  rw [finale, key]
  simp only [List.mem_map, List.mem_filter]
  constructor
  · rintro (h | ⟨_, ⟨c, ⟨hc, hg⟩, rfl⟩, h⟩)
    · exact .inl h
    · exact .inr ⟨c, hc, hg, h⟩
  · rintro (h | ⟨c, hc, hg, h⟩)
    · exact .inl h
    · exact .inr ⟨_, ⟨c, ⟨hc, hg⟩, rfl⟩, h⟩

/-- Once nothing is held up any more, it is the changes that go on. -/
theorem Timed.going_iff (h : Timed 0 cues) (hf : pauses cues ≤ f) :
    Going cues f ↔ f + 1 < finale cues := by
  rw [lt_finale]
  constructor
  · rintro ⟨c, hc, hlt⟩
    refine .inr ⟨c, hc, ?_, hlt⟩
    by_contra hg
    have hspan := Gauge.span_eq (Bool.not_eq_true _ ▸ hg)
    have hlast := h.onset_delay_le hc
    rw [Cue.finish] at hlt
    omega
  · rintro (hlt | ⟨c, hc, _, hlt⟩)
    · omega
    · exact ⟨c, hc, hlt⟩

theorem going_append : Going (cues ++ more) f ↔ Going cues f ∨ Going more f := by
  simp [Going, or_and_right, exists_or]

theorem going_later : Going (cues.map (Cue.later n)) (n + f) ↔ Going cues f := by
  simp [Going, Nat.add_assoc]

theorem verdict_ne_paused (hf : pauses cues ≤ f) (hs : status ≠ .paused) :
    verdict cues f status ≠ .paused := by
  rw [verdict, if_neg (Nat.not_lt_of_le hf)]
  split
  · exact nofun
  · exact hs

/-- A sequence answers what the later part makes of the answer of the earlier part. -/
theorem verdict_append :
    verdict (cues ++ more.map (Cue.later (pauses cues))) (pauses cues + f) status =
      verdict more f (verdict cues (pauses cues + f) status) := by
  have hhead : verdict cues (pauses cues + f) status =
      if Going cues (pauses cues + f) then .ongoing else status := by
    rw [verdict, if_neg (Nat.not_lt_of_le (Nat.le_add_right _ _))]
  rw [hhead, verdict, verdict, pauses_append, pauses_later]
  simp only [going_append, going_later, Nat.add_lt_add_iff_left]
  by_cases hg : Going cues (pauses cues + f) <;> by_cases hm : Going more f <;> simp [hg, hm]

/-- A task that runs a sequence of its own answers what its tasks answer. -/
theorem verdict_after (cues : List Cue) (f : Nat) (status : Status) :
    (if verdict cues f .ended = .paused then .paused else (verdict cues f .ended).after status) =
      verdict cues f status := by
  unfold verdict
  by_cases hp : f < pauses cues
  · simp [hp]
  · by_cases hg : Going cues f <;> simp [hp, hg, Status.after]

theorem verdict_eq_ended : verdict cues f .ended = .ended ↔ pauses cues ≤ f ∧ ¬Going cues f := by
  unfold verdict
  by_cases hp : f < pauses cues
  · simp [hp]
  · by_cases hg : Going cues f <;> simp [hp, hg, Nat.le_of_not_lt hp]

/-- The answers of a whole run: it is held up at first, then it goes on, and then it is over. -/
theorem Timed.verdict_eq (h : Timed 0 cues) (f : Nat) : verdict cues f .ended =
    if f < pauses cues then .paused else if f + 1 < finale cues then .ongoing else .ended := by
  unfold verdict
  split
  · rfl
  · rename_i hp
    simp only [h.going_iff (Nat.le_of_not_lt hp)]

theorem pauses_lt_finale (cues : List Cue) : pauses cues < finale cues :=
  lt_finale.2 (.inl (Nat.lt_add_of_pos_left Nat.one_pos))

/-- Once nothing is left to be run, it stays so. -/
theorem stays_ended (h : verdict cues f .ended = .ended) (hf : f < m) :
    verdict cues m status = status ∧ cues.filter (Cue.covers m) = [] := by
  obtain ⟨hp, hg⟩ := verdict_eq_ended.1 h
  have hlast (c) (hc : c ∈ cues) : c.finish ≤ m := by
    have hle : ¬f + 1 < c.finish := fun hlt => hg ⟨c, hc, hlt⟩
    omega
  constructor
  · rw [verdict, if_neg (by omega), if_neg]
    rintro ⟨c, hc, hlt⟩
    have := hlast c hc
    omega
  · rw [List.filter_eq_nil_iff]
    intro c hc
    have := hlast c hc
    rw [Cue.covers, decide_eq_true_iff]
    omega

theorem filter_later : (cues.map (Cue.later n)).filter (Cue.covers (n + f)) =
    (cues.filter (Cue.covers f)).map (Cue.later n) := by
  rw [List.filter_map]
  congr 2
  funext cue
  exact cue.covers_later n f

/-- Nothing is run of leaves that begin later. -/
theorem filter_later_of_lt (hf : f < n) :
    (cues.map (Cue.later n)).filter (Cue.covers f) = [] := by
  rw [List.filter_eq_nil_iff]
  intro cue hc
  obtain ⟨cue, _, rfl⟩ := List.mem_map.1 hc
  rw [Cue.covers, decide_eq_true_iff]
  rintro ⟨hle, _⟩
  exact absurd (Nat.le_trans (Nat.le_add_right n cue.onset) hle) (Nat.not_le_of_lt hf)

section Single

variable {id : TaskId} {g : Gauge}

/-- A leaf with which the frames begin. -/
theorem verdict_single : verdict [⟨id, 0, g⟩] f status =
    if f < g.delay then .paused else if f + 1 < g.span then .ongoing else status := by
  simp [verdict, Going, Cue.finish]

theorem filter_single : [(⟨id, 0, g⟩ : Cue)].filter (Cue.covers f) =
    if f < g.span then [⟨id, 0, g⟩] else [] := by
  simp [List.filter_cons, Cue.covers, Cue.finish]

end Single

end Timetable

theorem Cue.Runs.later {p : Pattern} {f n : Nat} {cue : Cue} {c : Turn.Call} (h : cue.Runs p f c) :
    (cue.later n).Runs p (n + f) c where
  leaf := h.leaf
  answer := by
    rw [h.answer]
    have hsub : n + f - (n + cue.onset) = f - cue.onset := Nat.add_sub_add_left n f cue.onset
    exact congrArg (fun k => Except.ok (cue.gauge.status k)) hsub.symm
  bullet := h.bullet
  gauge he := h.gauge (Nat.add_left_cancel he)

end Barrage

import Barrage.Proofs.Reach
import Barrage.Proofs.Vacancy

namespace Barrage

/-- What can be done to an arena, with any handle. The phase of a task is its own: an edit changes
the rest of the task, and only to advance it moves its phase. -/
inductive ArenaCall where
  | insert (task : Task)
  | release (id : TaskId)
  | edit (id : TaskId) (f : Task → Task)
  | advance (id : TaskId) (phase : Phase)

namespace ArenaCall

def perform : ArenaCall → Arena → Arena
  | .insert task, a => (a.insert task).2
  | .release id, a => (a.release id).2
  | .edit id f, a => a.modify id fun task => { f task with phase := task.phase }
  | .advance id phase, a => a.modify id fun task => task.advance phase

/-- The handles that a call gives out. -/
def issues : ArenaCall → Arena → List TaskId
  | .insert task, a => [(a.insert task).1]
  | _, _ => []

def performAll : List ArenaCall → Arena → Arena
  | [], a => a
  | call :: calls, a => performAll calls (call.perform a)

/-- The handles that a run of calls gives out, in order. -/
def issued : List ArenaCall → Arena → List TaskId
  | [], _ => []
  | call :: calls, a => call.issues a ++ issued calls (call.perform a)

theorem performAll_append (calls later : List ArenaCall) (a : Arena) :
    performAll (calls ++ later) a = performAll later (performAll calls a) := by
  induction calls generalizing a with
  | nil => rfl
  | cons call calls ih => exact ih _

end ArenaCall

theorem Phase.order_le (p : Phase) : p.order ≤ Phase.finished.order := by
  cases p <;> decide

namespace Store

variable {kind : HandleKind} {α : Type} {s : Store kind α} {h : Handle kind} {i n : Nat}

theorem Spares.modify {f : α → α} (hp : s.Spares) : (s.modify h f).Spares := by
  intro i n hn
  rw [Store.modify, free_modifySlot]
  rw [Store.modify, slots_modifySlot] at hn
  split at hn
  · obtain ⟨⟨m, value⟩, hslot, he⟩ := Option.map_eq_some_iff.1 hn
    cases value with
    | none => exact hp i m hslot
    | some a => cases he
  · exact hp i n hn

end Store

namespace Arena

variable {a a' a'' : Arena} {id k : TaskId} {task : Task} {X Y : Finset TaskId}

/-- The handle of a task that is there, or gone for good. -/
def Known (a : Arena) (id : TaskId) : Prop := a.contains id = true ∨ a.IsDead id

/-- How far a task has come, as its handle tells: one that is gone counts as finished. -/
def phase (a : Arena) (id : TaskId) : Phase := ((a.get? id).map Task.phase).getD .finished

/-- From `a` to `a'`, the tasks move forward or are gone for good, and are still known by their
handles. -/
structure Passes (a a' : Arena) : Prop where
  known : ∀ id, a.Known id → a'.Known id
  onward : a'.NoWrap → ∀ id, a.Known id → (a.phase id).order ≤ (a'.phase id).order
  grows : a.Grows a'

section Passes

theorem Passes.refl (a : Arena) : a.Passes a := ⟨fun _ h => h, fun _ _ _ => Nat.le_refl _, .refl a⟩

theorem Passes.trans (h₁ : a.Passes a') (h₂ : a'.Passes a'') : a.Passes a'' where
  known id h := h₂.known id (h₁.known id h)
  onward hw id h :=
    Nat.le_trans (h₁.onward (h₂.grows.noWrap hw) id h) (h₂.onward hw id (h₁.known id h))
  grows := h₁.grows.trans h₂.grows

/-- What is gone stays gone, so that only the tasks that are there have to be followed. -/
theorem passes_of_live (hg : a.Grows a')
    (h : ∀ id task, a.get? id = some task → a'.IsDead id ∨
      ∃ task', a'.get? id = some task' ∧ task.phase.order ≤ task'.phase.order) : a.Passes a' := by
  have finished (hw : a'.NoWrap) {id : TaskId} (hd : a'.IsDead id) : a'.phase id = .finished := by
    simp [phase, hd.get? hw]
  refine ⟨?_, ?_, hg⟩
  · rintro id (hl | hd)
    · obtain ⟨task, ht⟩ := contains_iff.1 hl
      rcases h id task ht with hd | ⟨task', ht', _⟩
      · exact .inr hd
      · exact .inl (contains_of_get? ht')
    · exact .inr (hd.grows hg)
  · rintro hw id (hl | hd)
    · obtain ⟨task, ht⟩ := contains_iff.1 hl
      rcases h id task ht with hd | ⟨task', ht', hle⟩
      · rw [finished hw hd]
        exact Phase.order_le _
      · simpa [phase, ht, ht'] using hle
    · rw [finished hw (hd.grows hg)]
      exact Phase.order_le _

theorem Replaces.passes (h : a.Replaces a' X Y) (hd : Disjoint X Y) : a.Passes a' := by
  refine passes_of_live h.grows fun id task ht => ?_
  by_cases hx : id ∈ X
  · exact .inl (h.dead id hx (Finset.disjoint_left.1 hd hx))
  · exact .inr ⟨task, (h.kept id (contains_of_get? ht) hx).trans ht, Nat.le_refl _⟩

end Passes

/-- The slots are in order, the tasks are counted right, and every empty slot can be given out. -/
structure Tidy (a : Arena) : Prop where
  sound : a.Sound
  spares : a.store.Spares

section Tidy

theorem tidy_empty : empty.Tidy := ⟨sound_empty, by simp [Store.Spares, empty, Store.empty]⟩

theorem Tidy.remove (h : a.Tidy) (id : TaskId) : (a.remove id).Tidy := by
  by_cases hc : a.contains id = true
  · refine ⟨(h.sound.remove hc).1, ?_⟩
    rw [Arena.remove, if_pos hc]
    exact h.spares.release id
  · rw [Arena.remove, if_neg hc]
    exact h

theorem Tidy.frees {stack : List TaskId} {n : Nat} (h : a.Tidy) (hf : a.Frees stack n a') :
    a'.Tidy := by
  induction hf with
  | done => exact h
  | stale _ _ ih => exact ih h
  | task _ _ ih => exact ih (h.remove _)

theorem Tidy.perform (h : a.Tidy) (call : ArenaCall) : (call.perform a).Tidy := by
  cases call with
  | insert task =>
    exact ⟨h.sound.insert, (h.sound.store.inRange.fills fun _ => task).spares h.spares⟩
  | release id => exact h.frees (frees_release a id)
  | edit id f => exact ⟨h.sound.modify, h.spares.modify⟩
  | advance id phase => exact ⟨h.sound.modify, h.spares.modify⟩

theorem Tidy.performAll (h : a.Tidy) (calls : List ArenaCall) :
    (ArenaCall.performAll calls a).Tidy := by
  induction calls generalizing a with
  | nil => exact h
  | cons call calls ih => exact ih (h.perform call)

end Tidy

section Calls

/-- A handle that is given out is that of a task, and was known to nobody before. -/
theorem Sound.issues (hs : a.Sound) (call : ArenaCall) (hid : id ∈ call.issues a) :
    (call.perform a).contains id = true ∧ ((call.perform a).NoWrap → ¬a.Known id) := by
  cases call with
  | insert task =>
    obtain rfl := List.mem_singleton.1 hid
    have hnew : (a.insert task).2.get? (a.insert task).1 = some task := by
      rw [hs.get?_insert, if_pos rfl]
    refine ⟨contains_of_get? hnew, ?_⟩
    rintro hw (hl | hd)
    · simp [contains, hs.get?_insert_fst] at hl
    · cases hnew.symm.trans ((hd.grows hs.grows_insert).get? hw)
  | release => cases hid
  | edit => cases hid
  | advance => cases hid

end Calls

theorem Sound.live_release (hs : a.Sound) (id : TaskId) :
    (a.release id).2.live + (a.release id).1 = a.live := by
  obtain ⟨X, _, hcard, hr⟩ := hs.replaces_release id
  have hcount := hr.count
  rw [hcard, Finset.card_empty] at hcount
  exact hcount

/-- Whatever was done to an arena, to release a task comes to an end. It frees the live tasks that
are reached from the task, each once, and counts them; it frees nothing if the task is gone. All
other tasks stay as they are. -/
theorem release_frees_what_is_reached (calls : List ArenaCall) (id : TaskId) :
    let a := ArenaCall.performAll calls .empty
    (∀ n a', a.Frees [id] n a' ↔ a.release id = (n, a')) ∧
    (a.below [id]).Finite ∧ (a.release id).1 = (a.below [id]).ncard ∧
    (a.contains id = false → a.release id = (0, a)) ∧
    (∀ k ∈ a.below [id], (a.release id).2.get? k = none ∧ (a.release id).2.IsDead k) ∧
    (∀ k ∉ a.below [id], (a.release id).2.get? k = a.get? k) ∧
    (a.release id).2.live + (a.release id).1 = a.live := by
  intro a
  have hs : a.Sound := (tidy_empty.performAll calls).sound
  obtain ⟨X, hX, hcard, hr⟩ := hs.replaces_release id
  have gone (k : TaskId) (hk : k ∈ X) : (a.release id).2.get? k = none := by
    refine get?_eq_none fun hc => ?_
    rcases hr.only k hc with hk' | ⟨_, hk'⟩
    · cases hk'
    · exact hk' hk
  refine ⟨fun n a' => frees_iff, hX ▸ X.finite_toSet, ?_, ?_, ?_, ?_, ?_⟩
  · rw [← hX, Set.ncard_coe_finset, hcard]
  · exact fun hn => frees_iff.1 (.stale (get?_eq_none (by simp [hn])) .done)
  · rw [← hX]
    exact fun k hk => ⟨gone k hk, hr.dead k hk (Finset.notMem_empty k)⟩
  · rw [← hX]
    intro k hk
    cases hg : a.get? k with
    | some task => rw [hr.kept k (contains_of_get? hg) hk, hg]
    | none =>
      refine get?_eq_none fun hc => ?_
      rcases hr.only k hc with hk' | ⟨hl, _⟩
      · cases hk'
      · simp [contains, hg] at hl
  · exact hs.live_release id

/-- Three tasks and one beside them. The first is above the other two, one of them twice, and below
the last. -/
def ring : List ArenaCall :=
  let task := Task.ofNode ⟨0⟩ none [] .action
  [.insert task, .insert task, .insert task,
    .edit ⟨0, 0⟩ fun task => { task with children := [⟨1, 0⟩, ⟨2, 0⟩, ⟨1, 0⟩] },
    .edit ⟨2, 0⟩ fun task => { task with children := [⟨0, 0⟩] }, .insert task]

/-- A ring is released once, from wherever it is entered, and no more than the ring. -/
theorem ring_is_released :
    let a := ArenaCall.performAll ring .empty
    a.live = 4 ∧ (a.below [⟨0, 0⟩]).ncard = 3 ∧ (a.below [⟨2, 0⟩]).ncard = 3 ∧
    a.Frees [⟨0, 0⟩] (a.release ⟨0, 0⟩).1 (a.release ⟨0, 0⟩).2 ∧
    (a.release ⟨0, 0⟩).2.get? ⟨1, 0⟩ = none ∧
    (a.release ⟨0, 0⟩).2.get? ⟨3, 0⟩ = a.get? ⟨3, 0⟩ ∧ a.contains ⟨3, 0⟩ = true ∧
    (a.release ⟨0, 0⟩).2.live = 1 ∧ a.release ⟨3, 1⟩ = (0, a) := by
  intro a
  obtain ⟨hends, _, hcount, _, hgone, hkept, _⟩ := release_frees_what_is_reached ring ⟨0, 0⟩
  obtain ⟨_, _, hcount', _⟩ := release_frees_what_is_reached ring ⟨2, 0⟩
  obtain ⟨_, _, _, hstale, _⟩ := release_frees_what_is_reached ring ⟨3, 1⟩
  have hthree : (a.release ⟨0, 0⟩).1 = 3 := by decide +kernel
  have hbelow : ⟨1, 0⟩ ∈ a.below [⟨0, 0⟩] :=
    ⟨by decide +kernel, ⟨0, 0⟩, by decide, [0], by decide +kernel⟩
  have hbeside : ⟨3, 0⟩ ∉ a.below [⟨0, 0⟩] := by
    intro hmem
    have hstays : (a.release ⟨0, 0⟩).2.contains ⟨3, 0⟩ = true := by decide +kernel
    rw [contains, (hgone _ hmem).1] at hstays
    cases hstays
  exact ⟨by decide +kernel, hcount.symm.trans hthree, hcount'.symm.trans (by decide +kernel),
    (hends _ _).2 Prod.mk.eta.symm, (hgone _ hbelow).1, hkept _ hbeside, by decide +kernel,
    by decide +kernel, hstale (by decide +kernel)⟩

end Arena
end Barrage

import Barrage.Proofs.Ownership
import Barrage.Proofs.Termination

namespace Barrage.Arena

variable {a a' b b' : Arena} {id c d : TaskId} {stack cs : List TaskId} {task : Task} {m n : Nat}

/-- Freeing from a stack, for as long as it lasts: a handle with no task behind it is dropped, and a
task makes way for its children, the last of them on top. Tasks may share children, or be below
themselves. -/
inductive Frees : Arena → List TaskId → Nat → Arena → Prop where
  | done {a : Arena} : Frees a [] 0 a
  | stale {a a' : Arena} {id : TaskId} {stack : List TaskId} {n : Nat} (hn : a.get? id = none)
      (h : Frees a stack n a') : Frees a (id :: stack) n a'
  | task {a a' : Arena} {id : TaskId} {task : Task} {stack : List TaskId} {n : Nat}
      (ht : a.get? id = some task) (h : Frees (a.remove id) (task.children.reverse ++ stack) n a') :
      Frees a (id :: stack) (n + 1) a'

section Below

@[simp] theorem below_nil : a.below [] = ∅ := by
  ext id
  simp [below]

theorem below_cons_of_stale (hn : a.get? c = none) : a.below (c :: cs) = a.below cs := by
  ext id
  constructor
  · rintro ⟨hl, root, hr, path, hf⟩
    rcases List.mem_cons.1 hr with rfl | hr
    · have hc := contains_of_follow hf hl
      simp [contains, hn] at hc
    · exact ⟨hl, root, hr, path, hf⟩
  · rintro ⟨hl, root, hr, path, hf⟩
    exact ⟨hl, root, List.mem_cons_of_mem _ hr, path, hf⟩

theorem child?_remove_of_ne {i : Nat} (hd : d ≠ c) : (a.remove c).child? d i = a.child? d i := by
  rw [child?, child?, get?_remove, if_neg hd]

theorem follow_of_remove {path : List Nat} (hf : (a.remove c).follow d path = some id) :
    a.follow d path = some id := by
  induction path generalizing d with
  | nil => exact hf
  | cons i path ih =>
    obtain ⟨e, he, hf⟩ := Option.bind_eq_some_iff.1 hf
    have hd : d ≠ c := by
      rintro rfl
      obtain ⟨task, ht, _⟩ := child?_eq_some he
      simp [get?_remove] at ht
    rw [follow, ← child?_remove_of_ne hd, he]
    exact ih hf

/-- What is reached at all is reached without `c`, or below a child of `c` without `c`: the way that
is left after the last visit of `c`. -/
theorem follow_remove {path : List Nat} (ht : a.get? c = some task)
    (hf : a.follow d path = some id) :
    ∃ e, (e = d ∨ e ∈ task.children) ∧ ∃ path, (a.remove c).follow e path = some id := by
  induction path generalizing d with
  | nil => exact ⟨d, .inl rfl, [], hf⟩
  | cons i path ih =>
    obtain ⟨f, hi, hf⟩ := Option.bind_eq_some_iff.1 hf
    obtain ⟨e, he, path, hp⟩ := ih hf
    rcases he with rfl | he
    · by_cases hd : d = c
      · obtain ⟨task', ht', hmem⟩ := child?_eq_some hi
        rw [hd, ht] at ht'
        cases ht'
        exact ⟨e, .inr (List.mem_of_getElem? hmem), path, hp⟩
      · refine ⟨d, .inl rfl, i :: path, ?_⟩
        rw [follow, child?_remove_of_ne hd, hi]
        exact hp
    · exact ⟨e, .inr he, path, hp⟩

theorem contains_remove : (a.remove c).contains id = true ↔ a.contains id = true ∧ id ≠ c := by
  rw [contains, get?_remove]
  split
  · simp_all
  · simp_all [contains]

/-- What is below a task is the task itself, and what is below its children without it. -/
theorem below_cons_of_task (ht : a.get? c = some task) :
    a.below (c :: cs) = {c} ∪ (a.remove c).below (task.children.reverse ++ cs) := by
  ext id
  rw [Set.mem_union, Set.mem_singleton_iff]
  constructor
  · rintro ⟨hl, root, hr, path, hf⟩
    by_cases hid : id = c
    · exact .inl hid
    · obtain ⟨e, he, path, hp⟩ := follow_remove ht hf
      refine .inr ⟨contains_remove.2 ⟨hl, hid⟩, ?_⟩
      rcases he with rfl | he
      · rcases List.mem_cons.1 hr with rfl | hr
        · -- Without `c`, nothing but `c` is reached from `c`.
          have hc := contains_of_follow hp (contains_remove.2 ⟨hl, hid⟩)
          exact absurd rfl (contains_remove.1 hc).2
        · exact ⟨e, List.mem_append_right _ hr, path, hp⟩
      · exact ⟨e, List.mem_append_left _ (List.mem_reverse.2 he), path, hp⟩
  · rintro (rfl | ⟨hl, root, hr, path, hf⟩)
    · exact ⟨contains_of_get? ht, id, List.mem_cons_self, [], rfl⟩
    · refine ⟨(contains_remove.1 hl).1, ?_⟩
      have hf := follow_of_remove hf
      rcases List.mem_append.1 hr with hr | hr
      · obtain ⟨i, hi⟩ := List.mem_iff_getElem?.1 (List.mem_reverse.1 hr)
        exact ⟨c, List.mem_cons_self, i :: path, by rw [follow_cons ht, hi]; exact hf⟩
      · exact ⟨root, List.mem_cons_of_mem _ hr, path, hf⟩

end Below

section Frees

/-- What is freed is all there is below the stack, each task once. -/
theorem Frees.replaces (h : a.Frees stack n a') (hs : a.Sound) :
    ∃ X : Finset TaskId, (X : Set TaskId) = a.below stack ∧ X.card = n ∧ a.Replaces a' X ∅ := by
  induction h with
  | done => exact ⟨∅, by simp, rfl, .refl hs ∅⟩
  | stale hn _ ih =>
    obtain ⟨X, hX, hcard, hr⟩ := ih hs
    exact ⟨X, hX.trans (below_cons_of_stale hn).symm, hcard, hr⟩
  | @task a a' id task stack n ht _ ih =>
    have hl := contains_of_get? ht
    have hfirst := hs.replaces_remove hl
    obtain ⟨X, hX, hcard, hr⟩ := ih hfirst.sound
    have hlive (k : TaskId) (hk : k ∈ X) : a.contains k = true ∧ k ≠ id := by
      have hk : k ∈ (a.remove id).below (task.children.reverse ++ stack) := hX ▸ hk
      exact contains_remove.1 hk.1
    have hid : id ∉ X := fun hk => (hlive id hk).2 rfl
    have hd : Disjoint {id} X := Finset.disjoint_singleton_left.2 hid
    have hboth := hfirst.frame (fun k hk => (hlive k hk).1) hd
    rw [Finset.empty_union] at hboth
    refine ⟨{id} ∪ X, ?_, ?_, hboth.trans hr⟩
    · rw [below_cons_of_task ht, ← hX, Finset.coe_union, Finset.coe_singleton]
    · rw [Finset.card_union_of_disjoint hd, Finset.card_singleton, hcard, Nat.add_comm]

theorem Frees.unique (h : a.Frees stack m b) (h' : a.Frees stack n b') : m = n ∧ b = b' := by
  induction h generalizing n b' with
  | done =>
    cases h'
    exact ⟨rfl, rfl⟩
  | stale hn _ ih =>
    cases h' with
    | stale _ h' => exact ih h'
    | task ht _ => cases hn.symm.trans ht
  | task ht _ ih =>
    cases h' with
    | stale hn _ => cases hn.symm.trans ht
    | task ht' h' =>
      cases ht.symm.trans ht'
      obtain ⟨rfl, rfl⟩ := ih h'
      exact ⟨rfl, rfl⟩

theorem frees_of_firstLive?_none (h : a.firstLive? stack = none) : a.Frees stack 0 a := by
  induction stack with
  | nil => exact .done
  | cons id stack ih =>
    cases hg : a.get? id with
    | none =>
      rw [firstLive?, hg] at h
      exact .stale hg (ih h)
    | some task =>
      rw [firstLive?, hg] at h
      cases h

theorem frees_of_firstLive?_some {rest : List TaskId}
    (hf : a.firstLive? stack = some (id, task, rest))
    (h : (a.remove id).Frees (task.children.reverse ++ rest) n a') : a.Frees stack (n + 1) a' := by
  induction stack with
  | nil => cases hf
  | cons c stack ih =>
    cases hg : a.get? c with
    | none =>
      rw [firstLive?, hg] at hf
      exact .stale hg (ih hf)
    | some task' =>
      rw [firstLive?, hg] at hf
      cases hf
      exact .task hg h

/-- Each round frees a task, so with a round for every task the stack is emptied. -/
theorem frees_releaseFrom (hm : a.store.occupied ≤ m) :
    a.Frees stack (releaseFrom m stack a).1 (releaseFrom m stack a).2 := by
  induction m generalizing a stack with
  | zero => exact frees_of_firstLive?_none (firstLive?_of_vacant (Nat.le_zero.1 hm))
  | succ m ih =>
    rw [releaseFrom]
    cases hf : a.firstLive? stack with
    | none => exact frees_of_firstLive?_none hf
    | some next =>
      obtain ⟨id, task, rest⟩ := next
      have hfreed := occupied_remove (contains_firstLive? hf)
      exact frees_of_firstLive?_some hf (ih (by omega))

theorem frees_release (a : Arena) (id : TaskId) :
    a.Frees [id] (a.release id).1 (a.release id).2 :=
  frees_releaseFrom a.store.slots.countP_le_size

theorem frees_iff : a.Frees [id] n a' ↔ a.release id = (n, a') := by
  constructor
  · intro h
    obtain ⟨hn, ha⟩ := (frees_release a id).unique h
    exact Prod.ext hn ha
  · intro h
    have hf := frees_release a id
    rw [h] at hf
    exact hf

/-- A task is released with all that is below it. -/
theorem Sound.replaces_release (hs : a.Sound) (id : TaskId) :
    ∃ X : Finset TaskId, (X : Set TaskId) = a.below [id] ∧ X.card = (a.release id).1 ∧
      a.Replaces (a.release id).2 X ∅ :=
  (frees_release a id).replaces hs

end Frees
end Barrage.Arena

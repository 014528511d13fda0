import Barrage.Proofs.Ownership
import Barrage.Proofs.Termination

namespace Barrage

namespace Arena

variable {P : Set TaskId} {a a' a'' : Arena} {id k c : TaskId} {cs : List TaskId} {task : Task}
  {f : Task → Task} {n : Nat} {X : Finset TaskId}

/-- The tasks of `P` are there, and no other task has one of them for a child. -/
structure Shields (P : Set TaskId) (a : Arena) : Prop where
  live : ∀ k ∈ P, a.contains k = true
  apart : ∀ id task, a.get? id = some task → id ∉ P → ∀ c ∈ task.children, c ∉ P

/-- From `a` to `a'`, the tasks of `P` stay as they are and nobody else's children. -/
structure Confines (P : Set TaskId) (a a' : Arena) : Prop extends a.Evolves a' where
  same : ∀ k ∈ P, a'.get? k = a.get? k
  shields : a'.Shields P

section Confines

theorem Shields.notMem_head (h : a.Shields P) (ht : a.get? id = some task) (hid : id ∉ P)
    (hc : task.children = c :: cs) : c ∉ P :=
  h.apart id task ht hid c (hc ▸ List.mem_cons_self)

theorem Shields.confines (h : a.Shields P) (hs : a.Sound) : a.Confines P a where
  toEvolves := hs.evolves
  same _ _ := rfl
  shields := h

theorem Confines.trans (h₁ : a.Confines P a') (h₂ : a'.Confines P a'') : a.Confines P a'' where
  toEvolves := h₁.toEvolves.trans h₂.toEvolves
  same k hk := (h₂.same k hk).trans (h₁.same k hk)
  shields := h₂.shields

theorem Confines.bind (h₁ : a.Confines P a') (h₂ : a'.Sound → a'.Shields P → a'.Confines P a'') :
    a.Confines P a'' :=
  h₁.trans (h₂ h₁.sound h₁.shields)

theorem Shields.confines_modify (h : a.Shields P) (hs : a.Sound) (hid : id ∉ P)
    (hf : ∀ task, a.get? id = some task → ∀ c ∈ (f task).children, c ∉ P) :
    a.Confines P (a.modify id f) where
  toEvolves := hs.evolves_modify
  same k hk := by rw [get?_modify, if_neg (ne_of_mem_of_not_mem hk hid)]
  shields := by
    refine ⟨fun k hk => contains_modify.trans (h.live k hk), ?_⟩
    intro k task ht hk
    rw [get?_modify] at ht
    split at ht
    · obtain ⟨task', ht', rfl⟩ := Option.map_eq_some_iff.1 ht
      exact hf task' ht'
    · exact h.apart k task ht hk

theorem Shields.confines_remove (h : a.Shields P) (hs : a.Sound) (hl : a.contains id = true)
    (hid : id ∉ P) : a.Confines P (a.remove id) := by
  have same (k : TaskId) (hk : k ∈ P) : (a.remove id).get? k = a.get? k := by
    rw [get?_remove, if_neg (ne_of_mem_of_not_mem hk hid)]
  refine ⟨(hs.replaces_remove hl).evolves, same, ?_, ?_⟩
  · intro k hk
    rw [contains, same k hk]
    exact h.live k hk
  · intro k task ht hk
    rw [get?_remove] at ht
    split at ht
    · cases ht
    · exact h.apart k task ht hk

/-- What a list leads to first is in the list, and what follows it is. -/
theorem mem_of_firstLive? {rest : List TaskId} (h : a.firstLive? cs = some (id, task, rest)) :
    a.get? id = some task ∧ id ∈ cs ∧ rest ⊆ cs := by
  induction cs with
  | nil => cases h
  | cons c cs ih =>
    unfold firstLive? at h
    split at h
    · rename_i hc
      cases h
      exact ⟨hc, List.mem_cons_self, List.subset_cons_self _ _⟩
    · obtain ⟨ht, hm, hsub⟩ := ih h
      exact ⟨ht, List.mem_cons_of_mem _ hm, List.subset_cons_of_subset _ hsub⟩

theorem Shields.confines_releaseFrom (h : a.Shields P) (hs : a.Sound) (rounds : Nat)
    {stack : List TaskId} (hstack : ∀ c ∈ stack, c ∉ P) :
    a.Confines P (releaseFrom rounds stack a).2 := by
  induction rounds generalizing stack a with
  | zero => exact h.confines hs
  | succ rounds ih =>
    unfold releaseFrom
    split
    · exact h.confines hs
    · rename_i id task rest hf
      obtain ⟨ht, hm, hsub⟩ := mem_of_firstLive? hf
      have hid := hstack id hm
      apply (h.confines_remove hs (contains_of_get? ht) hid).bind
      intro hs' h'
      apply ih h' hs'
      intro c hc
      rcases List.mem_append.1 hc with hc | hc
      · exact h.apart id task ht hid c (List.mem_reverse.1 hc)
      · exact hstack c (hsub hc)

theorem Shields.confines_release (h : a.Shields P) (hs : a.Sound) (hid : id ∉ P) :
    a.Confines P (a.release id).2 :=
  h.confines_releaseFrom hs _ (by simpa using hid)

/-- New tasks are beside all that were there. -/
theorem Shields.confines_bound {owner : Option TaskId} {trees : List TaskTree} (h : a.Shields P)
    (hr : a.Replaces a' ∅ X) (hh : a'.Holds owner cs trees X) :
    a.Confines P a' ∧ ∀ c ∈ cs, c ∉ P := by
  have same (k : TaskId) (hk : k ∈ P) : a'.get? k = a.get? k :=
    hr.kept k (h.live k hk) (Finset.notMem_empty k)
  have live (k : TaskId) (hk : k ∈ P) : a'.contains k = true := by
    rw [contains, same k hk]
    exact h.live k hk
  have fresh (k : TaskId) (hk : k ∈ X) : k ∉ P := by
    intro hP
    have hnone := (hr.fresh k hk).resolve_left (Finset.notMem_empty k)
    have hlive := h.live k hP
    simp [contains, hnone] at hlive
  refine ⟨⟨hr.evolves, same, live, ?_⟩, ?_⟩
  · intro id task ht hid c hc hP
    rcases hr.only id (contains_of_get? ht) with hm | ⟨hold, _⟩
    · exact fresh c (hh.spans.closed hm ht hc (live c hP)) hP
    · rw [hr.kept id hold (Finset.notMem_empty id)] at ht
      exact h.apart id task ht hid c hc hP
  · exact fun c hc => fresh c (hh.spans.mem_of_live hc (hh.contains hc))

end Confines

section Above

/-- The further down from a task, the shorter chains are. -/
theorem Within.follow {path : List Nat} (h : a.Within n id) (hw : a.NoWrap)
    (hf : a.follow id path = some k) : a.Within (n - path.length) k := by
  induction path generalizing n id with
  | nil =>
    cases hf
    exact h
  | cons i path ih =>
    obtain ⟨c, hc, hf⟩ := Option.bind_eq_some_iff.1 hf
    obtain ⟨task, ht, hi⟩ := child?_eq_some hc
    obtain ⟨m, rfl, _, hchildren⟩ := h.of_live ht hw
    rw [List.length_cons, Nat.add_sub_add_right]
    exact ih (hchildren c (List.mem_of_getElem? hi)) hf

/-- A task is not below its own children where chains are bounded. -/
theorem Within.acyclic (h : a.Within n k) (hw : a.NoWrap) (ht : a.get? k = some task)
    (hc : c ∈ task.children) : k ∉ a.below [c] := by
  rintro ⟨hl, root, hr, path, hf⟩
  rw [List.mem_singleton] at hr
  subst hr
  obtain ⟨i, hi⟩ := List.mem_iff_getElem?.1 hc
  have hloop : a.follow k (i :: path) = some k := by
    rw [follow_cons ht, hi]
    exact hf
  -- The least bound of the task would not be the least.
  induction n using Nat.strong_induction_on with
  | _ n ih =>
    have hless := h.follow hw hloop
    rw [List.length_cons] at hless
    obtain ⟨m, rfl, _, _⟩ := h.of_live ht hw
    exact ih _ (by omega) hless

/-- The tasks that a task is below. -/
def above (a : Arena) (k : TaskId) : Set TaskId := {id | k ∈ a.below [id]}

theorem mem_above_self (hl : a.contains k = true) : k ∈ a.above k :=
  ⟨hl, k, List.mem_singleton_self k, [], rfl⟩

theorem shields_above (a : Arena) (k : TaskId) : a.Shields (a.above k) where
  live id hid := by
    obtain ⟨hl, root, hr, path, hf⟩ := hid
    rw [List.mem_singleton] at hr
    subst hr
    exact contains_of_follow hf hl
  apart id task ht hid c hc hP := by
    obtain ⟨hl, root, hr, path, hf⟩ := hP
    rw [List.mem_singleton] at hr
    subst hr
    obtain ⟨i, hi⟩ := List.mem_iff_getElem?.1 hc
    exact hid ⟨hl, id, List.mem_singleton_self id, i :: path, by rw [follow_cons ht, hi]; exact hf⟩

end Above

end Arena

namespace Turn

variable {P : Set TaskId} {p : Pattern} {fuel room left : Nat} {job : Job} {t t' : Turn}
  {id body fresh : TaskId} {task : Task} {calls : List Call} {r : Except PatternError Status}
  {b : Bullet}

section Steps

theorem confines_advance (h : t.tasks.Shields P) (hs : t.tasks.Sound) (hid : id ∉ P)
    (phase : Phase) : t.tasks.Confines P (t.tasks.modify id (·.advance phase)) :=
  h.confines_modify hs hid fun task ht => h.apart id task ht hid

theorem confines_close (h : t.tasks.Shields P) (hs : t.tasks.Sound) (hid : id ∉ P) :
    t.tasks.Confines P (t.close id r).tasks := by
  unfold close
  split
  · exact confines_advance h hs hid .finished
  · exact h.confines hs

theorem confines_own {a : Arena} {roots : List TaskId} (h : a.Shields P) (hs : a.Sound)
    (hr : ∀ root ∈ roots, root ∉ P) (fire : TaskId) : a.Confines P (own fire roots a) := by
  induction roots generalizing a with
  | nil => exact h.confines hs
  | cons root roots ih =>
    have hroot := hr root List.mem_cons_self
    have hm := h.confines_modify hs hroot (f := fun task => { task with owner := some fire })
      fun task ht => h.apart root task ht hroot
    exact hm.bind fun hs' h' => ih h' hs' fun root hm => hr root (List.mem_cons_of_mem _ hm)

theorem Acts.confines (ha : Acts p id task t r t') (h : t.tasks.Shields P) (hs : t.tasks.Sound)
    (hid : id ∉ P) : t.tasks.Confines P t'.tasks := by
  cases ha with
  | steers => exact h.confines_modify hs hid fun task ht => h.apart id task ht hid
  | vanishes => exact h.confines hs
  | empty => exact h.confines hs
  | unheld => exact h.confines hs
  | drops => exact h.confines hs
  | misfires _ _ _ _ hb =>
    obtain ⟨hr, _⟩ := Binder.bindRoots_error (g := False) (s := ⟨t.tasks, _⟩) hs hb nofun nofun
    exact (h.confines_bound hr (.nil : Arena.Holds _ none [] [] ∅)).1
  | fires _ _ _ _ hb =>
    obtain ⟨_, _, hr, hh, _⟩ :=
      Binder.bindRoots_ok (g := False) (s := ⟨t.tasks, _⟩) hs hb nofun nofun
    obtain ⟨hbind, hroots⟩ := h.confines_bound hr hh
    exact hbind.bind fun hs' h' => confines_own h' hs' hroots id

theorem Counts.confines {st : RepeatState} {times : UInt32} (hc : Counts p id task st t times t')
    (h : t.tasks.Shields P) (hs : t.tasks.Sound) (hid : id ∉ P) :
    t.tasks.Confines P t'.tasks := by
  cases hc with
  | known => exact h.confines hs
  | finds => exact h.confines_modify hs hid fun task ht => h.apart id task ht hid

theorem confines_countBody (h : t.tasks.Shields P) (hs : t.tasks.Sound) (hid : id ∉ P)
    (hbody : body ∉ P) : t.tasks.Confines P ((t.shed body).countBody id task).tasks := by
  have hshed : t.tasks.Confines P (t.shed body).tasks := h.confines_release hs hbody
  apply hshed.bind
  intro hs' h'
  exact h'.confines_modify hs' hid fun _ _ _ hc => absurd hc List.not_mem_nil

theorem confines_rebind_error {e : PatternError} (h : t.tasks.Shields P) (hs : t.tasks.Sound)
    (hb : rebind p room id task b t = .error e t') : t.tasks.Confines P t'.tasks := by
  unfold rebind bindFor at hb
  split at hb
  · cases hb
  · rename_i hm
    cases hb
    obtain ⟨hr, _⟩ := Binder.bindBody_error (g := False) (b := ⟨p, t.context.rank, b⟩) hs hm
      nofun nofun nofun
    exact (h.confines_bound hr (.nil : Arena.Holds _ none [] [] ∅)).1

theorem confines_again (h : t.tasks.Shields P) (hs : t.tasks.Sound) (hid : id ∉ P)
    (hb : rebind p room id task b t = .ok fresh t') :
    t.tasks.Confines P (t'.adopt id fresh).tasks := by
  unfold rebind bindFor at hb
  split at hb
  · rename_i hm
    cases hb
    obtain ⟨_, _, hr, hh, _⟩ := Binder.bindBody_ok (g := False) (b := ⟨p, t.context.rank, b⟩) hs hm
      nofun nofun nofun
    obtain ⟨hbind, hfresh⟩ := h.confines_bound hr hh
    apply hbind.bind
    intro hs' h'
    apply h'.confines_modify hs' hid
    intro task ht c hc
    rcases List.mem_append.1 hc with hc | hc
    · exact h'.apart id task ht hid c hc
    · exact hfresh c hc
  · cases hb

end Steps

/-- The job begins with none of the tasks of `P`. -/
def Job.Outside (P : Set TaskId) : Job → Prop
  | .task id => id ∉ P
  | .sequence ids _ => ∀ id ∈ ids, id ∉ P
  | .bodies _ id _ => id ∉ P

/-- A run leaves the tasks alone that are not below what it runs. -/
theorem Runs.confines (hrun : Runs p fuel job t calls r t') (h : t.tasks.Shields P)
    (hs : t.tasks.Sound) (hj : job.Outside P) : t.tasks.Confines P t'.tasks := by
  induction hrun with
  | exhausted => exact h.confines hs
  | stale => exact h.confines hs
  | finished => exact h.confines hs
  | leaf _ _ ha =>
    apply (confines_advance h hs hj .running).bind
    intro hs' h'
    exact (ha.confines h' hs' hj).bind fun hs h => confines_close h hs hj
  | composite ht _ _ _ ih =>
    apply (confines_advance h hs hj .running).bind
    intro hs' h'
    exact (ih h' hs' (h.apart _ _ ht hj)).bind fun hs h => confines_close h hs hj
  | «repeat» _ _ _ hc _ ih =>
    apply (confines_advance h hs hj .running).bind
    intro hs' h'
    apply (hc.confines h' hs' hj).bind
    intro hs h
    exact (ih h hs hj).bind fun hs h => confines_close h hs hj
  | done => exact h.confines hs
  | skip _ _ ih => exact ih h hs fun id hm => hj id (List.mem_cons_of_mem _ hm)
  | halt _ _ _ _ ih => exact ih h hs (hj _ List.mem_cons_self)
  | cut _ _ _ _ ih => exact ih h hs (hj _ List.mem_cons_self)
  | next _ _ _ _ _ ih ih' =>
    exact (ih h hs (hj _ List.mem_cons_self)).bind fun hs h =>
      ih' h hs fun id hm => hj id (List.mem_cons_of_mem _ hm)
  | lost => exact h.confines hs
  | bare => exact h.confines hs
  | spent ht hc => exact h.confines_release hs (h.notMem_head ht hj hc)
  | hold ht hc _ _ ih => exact ih h hs (h.notMem_head ht hj hc)
  | vacant ht hc _ _ ih =>
    have hbody := h.notMem_head ht hj hc
    exact (ih h hs hbody).bind fun hs h => h.confines_release hs hbody
  | last ht hc _ _ _ ih =>
    have hbody := h.notMem_head ht hj hc
    exact (ih h hs hbody).bind fun hs h => confines_countBody h hs hj hbody
  | unbound ht hc _ _ hb ih =>
    have hbody := h.notMem_head ht hj hc
    apply (ih h hs hbody).bind
    intro hs h
    exact (confines_countBody h hs hj hbody).bind fun hs h => confines_rebind_error h hs hb
  | again ht hc _ _ hb _ ih ih' =>
    have hbody := h.notMem_head ht hj hc
    apply (ih h hs hbody).bind
    intro hs h
    apply (confines_countBody h hs hj hbody).bind
    intro hs h
    exact (confines_again h hs hj hb).bind fun hs h => ih' h hs hj

/-- A task stays as it is while one of its children is run and let go. -/
theorem get?_shed_of_child (hs : t.tasks.Sound) (hb : t.tasks.Bounded) (hw : t.tasks.NoWrap)
    (ht : t.tasks.get? id = some task) (hc : body ∈ task.children)
    (hrun : Runs p fuel (.task body) t calls r t') :
    t'.tasks.get? id = some task ∧ (t'.shed body).tasks.get? id = some task := by
  have hl := Arena.contains_of_get? ht
  have hself := Arena.mem_above_self hl
  have hbody : body ∉ t.tasks.above id := (hb id hl).acyclic hw ht hc
  have hrest := hrun.confines (t.tasks.shields_above id) hs hbody
  have hshed := hrest.bind fun hs h => h.confines_release hs hbody
  exact ⟨(hrest.same id hself).trans ht, (hshed.same id hself).trans ht⟩

end Turn
end Barrage

import Barrage.Proofs.Ownership

namespace Barrage

namespace Arena

/-- `a'` holds the same tasks as `a`. Only the slots that are free may differ. -/
structure SameTasks (a a' : Arena) : Prop where
  get? : ∀ k, a'.get? k = a.get? k
  live : a'.live = a.live

/-- `a'` holds the tasks of `a` unchanged, and beside them just those below some new roots. -/
structure Grafts (a a' : Arena) (roots : List TaskId) : Prop where
  fresh : ∀ k ∈ a'.below roots, a.get? k = none
  kept : ∀ k, k ∉ a'.below roots → a'.get? k = a.get? k
  live : a'.live = a.live + (a'.below roots).ncard

/-- What was added are these trees, under one owner. -/
structure Plants (a a' : Arena) (owner : Option TaskId) (roots : List TaskId)
    (trees : List TaskTree) : Prop extends Grafts a a' roots where
  holds : ∃ X, a'.Holds owner roots trees X

/-- What is reached from a task along children is live, and on one path only. -/
structure IsTree (a : Arena) (id : TaskId) : Prop where
  live : ∀ path k, a.follow id path = some k → a.contains k = true
  unique : ∀ k path other, a.follow id path = some k → a.follow id other = some k → path = other

variable {a a' : Arena} {id k d : TaskId} {roots cs : List TaskId} {owner : Option TaskId}
  {task : Task} {tree : TaskTree} {trees : List TaskTree} {X : Finset TaskId} {path : List Nat}

/-- Tasks that were not replaced are the same where nothing was there before, too. -/
theorem Replaces.get?_of_notMem (h : a.Replaces a' ∅ X) (hk : k ∉ X) : a'.get? k = a.get? k := by
  by_cases hc : a.contains k = true
  · exact h.kept k hc (Finset.notMem_empty k)
  · rw [get?_eq_none hc]
    apply get?_eq_none
    intro hc'
    rcases h.only k hc' with hm | ⟨hold, _⟩
    · exact hk hm
    · exact hc hold

theorem Replaces.sameTasks (h : a.Replaces a' ∅ ∅) : a.SameTasks a' :=
  ⟨fun k => h.get?_of_notMem (Finset.notMem_empty k), h.count⟩

theorem Replaces.grafts (h : a.Replaces a' ∅ X) (hs : a'.Spans roots X) : a.Grafts a' roots where
  fresh k hk := by
    rw [hs.below_eq] at hk
    exact (h.fresh k hk).resolve_left (Finset.notMem_empty k)
  kept k hk := by
    rw [hs.below_eq] at hk
    exact h.get?_of_notMem hk
  live := by
    rw [hs.below_eq, Set.ncard_coe_finset]
    exact h.count

theorem Replaces.plants (h : a.Replaces a' ∅ X) (hh : a'.Holds owner roots trees X) :
    a.Plants a' owner roots trees :=
  ⟨h.grafts hh.spans, X, hh⟩

theorem Holds.root_mem (h : a.Holds owner cs trees X) (hd : d ∈ cs) : d ∈ X :=
  h.spans.mem_of_live hd (h.contains hd)

theorem Holds.children_mem (h : a.Holds owner cs trees X) (hk : k ∈ X) (ht : a.get? k = some task)
    (hd : d ∈ task.children) : d ∈ X := by
  induction h with
  | nil => cases hk
  | cons ht' hc _ _ _ ihc ihs =>
    simp only [Finset.mem_union, Finset.mem_singleton] at hk ⊢
    rcases hk with (rfl | hk) | hk
    · rw [ht', Option.some.injEq] at ht
      subst ht
      exact .inl (.inr (hc.root_mem hd))
    · exact .inl (.inr (ihc hk))
    · exact .inr (ihs hk)

theorem Holds.follow_mem (h : a.Holds owner cs trees X) (hk : k ∈ X)
    (hf : a.follow k path = some d) : d ∈ X := by
  induction path generalizing k with
  | nil =>
    cases hf
    exact hk
  | cons i path ih =>
    obtain ⟨c, hc, hf⟩ := Option.bind_eq_some_iff.1 hf
    obtain ⟨task, ht, hi⟩ := child?_eq_some hc
    exact ih (h.children_mem hk ht (List.mem_of_getElem? hi)) hf

/-- Tasks that were bound and have not run are a tree. -/
theorem Holds.isTree (h : a.Holds owner [id] [tree] X) : a.IsTree id := by
  have hroot := List.mem_singleton_self id
  have hlive (path : List Nat) (k : TaskId) (hf : a.follow id path = some k) :
      a.contains k = true :=
    h.spans.contains (h.follow_mem (h.root_mem hroot) hf)
  refine ⟨hlive, ?_⟩
  intro k path other hf hg
  have hone : [id][0]? = some id := rfl
  exact (h.spans.path_unique (hlive path k hf) hone hf hone hg).2

end Arena

namespace Turn

variable {p : Pattern} {b : Bullet} {room : Nat} {node : NodeId} {owner : Option TaskId}
  {params : List Float32} {t : Turn}

/-- Binding, by what the binder makes of the tasks and the random numbers. -/
theorem bindFor_eq {α : Type} (step : Binder → Binding α) (t : Turn) :
    bindFor p b step t =
      match step ⟨p, t.context.rank, b⟩ ⟨t.tasks, t.context.random⟩ with
      | .ok a s => .ok a
        { t with tasks := s.tasks, context := { t.context with random := s.random } }
      | .error e s => .error e
        { t with tasks := s.tasks, context := { t.context with random := s.random } } := by
  rw [bindFor]
  split <;> rename_i h <;> rw [h]

/-- Binding a node leaves nothing behind if it fails, nothing at all if the node is no task, and
else one tree of new tasks. It draws random numbers and touches nothing but the tasks. The pattern
need not be sound, and its references may go in circles. -/
theorem binding_is_all_or_nothing (p : Pattern) (b : Bullet) (room : Nat) (node : NodeId)
    (owner : Option TaskId) (params : List Float32) (t : Turn) (hs : t.tasks.Sound) :
    let result := bindFor p b (fun binder => binder.bindNode room node owner params) t
    let t' := state result
    t' = { t with
      tasks := t'.tasks
      context := { t.context with random := t'.context.random } } ∧
    t'.tasks.Sound ∧
    (∀ e, answer result = .error e → t.tasks.SameTasks t'.tasks) ∧
    (answer result = .ok none → t'.tasks = t.tasks) ∧
    ∀ id, answer result = .ok (some id) → t.tasks.Grafts t'.tasks [id] ∧ t'.tasks.IsTree id := by
  intro result t'
  have h := Binder.follows_node ⟨p, t.context.rank, b⟩ room node owner params
    ⟨t.tasks, t.context.random⟩ hs
  have hresult : result = bindFor p b (fun binder => binder.bindNode room node owner params) t :=
    rfl
  have ht' : t' = state result := rfl
  rw [bindFor_eq] at hresult
  generalize Binder.bindNode _ _ _ _ _ _ = bound at h hresult
  generalize Binder.expandNode _ _ _ _ _ = expanded at h
  cases h with
  | skip =>
    rw [ht', hresult]
    exact ⟨rfl, hs, nofun, fun _ => rfl, nofun⟩
  | error hr =>
    rw [ht', hresult]
    exact ⟨rfl, hr.sound, fun _ _ => hr.sameTasks, nofun, nofun⟩
  | ok hr hh =>
    rw [ht', hresult]
    refine ⟨rfl, hr.sound, nofun, nofun, ?_⟩
    intro id hid
    cases hid
    exact ⟨hr.grafts hh.spans, hh.isTree⟩

/-- The top action of a spark, bound in an empty arena, is a tree of three tasks. -/
theorem spark_is_all_or_nothing :
    Arena.empty.Sound ∧
    ∃ (id : TaskId) (t' : Turn),
      bindFor .spark (.atRest ⟨0, 0⟩)
          (fun binder => binder.bindNode (maxNestDepth + 1) ⟨1⟩ none [])
          ⟨.atRest ⟨0, 0⟩, .empty, .ofCapacity 4, .ofSeed 0 0, #[]⟩ = .ok (some id) t' ∧
        t'.tasks.live = 3 ∧ Arena.empty.Grafts t'.tasks [id] ∧ t'.tasks.IsTree id := by
  refine ⟨Arena.sound_empty, _, _, rfl, by decide +kernel, ?_⟩
  have h := binding_is_all_or_nothing .spark (.atRest ⟨0, 0⟩) (maxNestDepth + 1) ⟨1⟩ none []
    ⟨.atRest ⟨0, 0⟩, .empty, .ofCapacity 4, .ofSeed 0 0, #[]⟩ Arena.sound_empty
  exact h.2.2.2.2 _ rfl

end Turn
end Barrage

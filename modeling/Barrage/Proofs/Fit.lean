import Barrage.Proofs.Binding
import Barrage.Proofs.Bound

namespace Barrage

/-- The task is bound to the pattern, as far as `g` lets us know, and has not lost the child it
still needs. -/
structure Task.Fits (g : Prop) (p : Pattern) (a : Arena) (task : Task) : Prop where
  bound : g → p.Bound task.node task.kind
  held : task.isFinished = false → task.kind.holdsOne = true →
    ∃ c, task.children = [c] ∧ a.contains c = true

namespace Arena

def Fit (g : Prop) (p : Pattern) (a : Arena) (X : Finset TaskId) : Prop :=
  ∀ id ∈ X, ∀ task, a.get? id = some task → task.Fits g p a

variable {g : Prop} {p : Pattern} {a a' : Arena} {id c : TaskId} {cs : List TaskId} {task : Task}
  {X Y Z : Finset TaskId}

theorem Fit.empty : a.Fit g p ∅ := fun _ h => absurd h (Finset.notMem_empty _)

theorem Fit.mono (h : a.Fit g p Y) (hs : X ⊆ Y) : a.Fit g p X := fun id hm => h id (hs hm)

theorem Fit.union (h₁ : a.Fit g p X) (h₂ : a.Fit g p Y) : a.Fit g p (X ∪ Y) := fun id hm =>
  (Finset.mem_union.1 hm).elim (h₁ id) (h₂ id)

theorem Spans.closed (h : a.Spans cs X) (hm : id ∈ X) (ht : a.get? id = some task)
    (hc : c ∈ task.children) (hl : a.contains c = true) : c ∈ X := by
  induction h with
  | nil => cases hm
  | dead _ _ _ ih => exact ih hm
  | live ht' hs _ _ _ ihc ihs =>
    simp only [Finset.mem_union, Finset.mem_singleton] at hm ⊢
    rcases hm with (rfl | hm) | hm
    · rw [ht', Option.some.injEq] at ht
      subst ht
      exact .inl (.inr (hs.mem_of_live hc hl))
    · exact .inl (.inr (ihc hm))
    · exact .inr (ihs hm)

theorem Spans.unique (h : a.Spans cs X) (h' : a.Spans cs Y) : X = Y := by
  induction h generalizing Y with
  | nil =>
    cases h'
    rfl
  | dead hn _ _ ih =>
    cases h' with
    | dead _ _ hs => exact ih hs
    | live ht =>
      rw [hn] at ht
      cases ht
  | live ht _ _ _ _ ihc ihs =>
    cases h' with
    | dead hn =>
      rw [hn] at ht
      cases ht
    | live ht' hc _ hs _ =>
      rw [ht, Option.some.injEq] at ht'
      subst ht'
      rw [ihc hc, ihs hs]

/-- What is replaced elsewhere does not matter to a forest. -/
theorem Fit.apart (h : a.Fit g p Z) (hs : a.Spans cs Z) (hr : a.Replaces a' X Y)
    (hd : Disjoint X Z) : a'.Fit g p Z := by
  intro id hm task ht
  have hout {k} (hk : k ∈ Z) : k ∉ X := Finset.disjoint_right.1 hd hk
  rw [hr.kept id (hs.contains hm) (hout hm)] at ht
  refine ⟨(h id hm task ht).bound, ?_⟩
  intro hf ho
  obtain ⟨c, hc, hl⟩ := (h id hm task ht).held hf ho
  have hcZ := hs.closed hm ht (hc ▸ List.mem_singleton_self c) hl
  exact ⟨c, hc, hr.keeps hl (hout hcZ)⟩

theorem Fit.modify {f : Task → Task} (h : a.Fit g p X)
    (hf : ∀ task, a.get? id = some task → task.Fits g p a → (f task).Fits g p a) :
    (a.modify id f).Fit g p X := by
  intro k hk task ht
  have old : task.Fits g p a := by
    rw [get?_modify] at ht
    split at ht
    · rename_i he
      obtain ⟨task', ht', rfl⟩ := Option.map_eq_some_iff.1 ht
      exact hf task' ht' (h k hk task' (he ▸ ht'))
    · exact h k hk task ht
  refine ⟨old.bound, ?_⟩
  intro hfin ho
  obtain ⟨c, hc, hl⟩ := old.held hfin ho
  exact ⟨c, hc, contains_modify.trans hl⟩

theorem Holds.contains {trees : List TaskTree} (h : a.Holds owner cs trees X) (hc : c ∈ cs) :
    a.contains c = true := by
  induction h with
  | nil => cases hc
  | cons ht _ _ _ _ _ ihs =>
    rcases List.mem_cons.1 hc with rfl | hc
    · exact contains_of_get? ht
    · exact ihs hc

theorem Holds.fit {trees : List TaskTree} (h : a.Holds owner cs trees X)
    (hp : ∀ tree ∈ trees, tree.Proper g p) : a.Fit g p X := by
  induction h with
  | nil => exact .empty
  | @cons owner c cs children node params kind below trees X Y ht hc hX hs hd ihc ihs =>
    cases hp _ List.mem_cons_self with
    | node hb ho hbelow =>
      refine Fit.union (Fit.union ?_ (ihc hbelow)) (ihs fun t h => hp t (List.mem_cons_of_mem _ h))
      intro id hm task htask
      rw [Finset.mem_singleton.1 hm, ht, Option.some.injEq] at htask
      subst htask
      refine ⟨hb, ?_⟩
      intro _ h
      obtain ⟨tree, rfl⟩ := ho h
      cases hc with
      | cons hchild _ _ hrest _ =>
        cases hrest
        exact ⟨_, rfl, contains_of_get? hchild⟩

end Arena

namespace Binder
open Expansion

variable {g : Prop} {b : Binder} {owner : Option TaskId} {params : List Float32} {s s' : BindState}

/-- Roots that are bound fit the pattern; a failure leaves nothing behind. -/
theorem bindRoots_ok {nodes : List NodeId} {roots : List TaskId} (hs : s.tasks.Sound)
    (h : b.bindRoots owner params nodes [] s = .ok roots s') (hp : g → b.pattern.Closed)
    (hn : ∀ n ∈ nodes, g → b.pattern.Has n) :
    ∃ trees X, s.tasks.Replaces s'.tasks ∅ X ∧ s'.tasks.Holds owner roots trees X ∧
      s'.tasks.Fit g b.pattern X := by
  have hb : BindsRoots owner [] ∅ s (b.bindRoots owner params nodes [] s) _ :=
    binds_roots nodes hs .nil
  have hy := yields_children (expands_node hp (maxNestDepth + 1)) params hn s.random
  generalize expandChildren (b.expandNode (maxNestDepth + 1)) params nodes s.random = x at hb hy
  rw [h] at hb
  cases hb with
  | ok hr hh => exact ⟨_, _, hr, hh, hh.fit hy⟩

theorem bindRoots_error {nodes : List NodeId} {e : PatternError} (hs : s.tasks.Sound)
    (h : b.bindRoots owner params nodes [] s = .error e s') (hp : g → b.pattern.Closed)
    (hn : ∀ n ∈ nodes, g → b.pattern.Has n) :
    s.tasks.Replaces s'.tasks ∅ ∅ ∧ (g → b.pattern.Raises e) := by
  have hb : BindsRoots owner [] ∅ s (b.bindRoots owner params nodes [] s) _ :=
    binds_roots nodes hs .nil
  have hy := yields_children (expands_node hp (maxNestDepth + 1)) params hn s.random
  generalize expandChildren (b.expandNode (maxNestDepth + 1)) params nodes s.random = x at hb hy
  rw [h] at hb
  cases hb with
  | error hr => exact ⟨hr, hy⟩

theorem bindBody_ok {room : Nat} {node : NodeId} {id fresh : TaskId} (hs : s.tasks.Sound)
    (h : b.bindBody (b.bindNode room) node id params s = .ok fresh s')
    (hp : g → b.pattern.Closed) (hn : g → b.pattern.Has node)
    (he : g → b.pattern.element node = .repeat) :
    ∃ tree X, s.tasks.Replaces s'.tasks ∅ X ∧ s'.tasks.Holds (some id) [fresh] [tree] X ∧
      s'.tasks.Fit g b.pattern X := by
  have hb := (b.follows_node room).body (b := b) hs node id params
  have hy := yields_body hp (expands_node hp room) hn he params s.random
  generalize b.expandBody (b.expandNode room) node params s.random = x at hb hy
  rw [h] at hb
  cases hb with
  | ok hr hh => exact ⟨_, _, hr, hh, hh.fit (by simpa using hy)⟩

theorem bindBody_error {room : Nat} {node : NodeId} {id : TaskId} {e : PatternError}
    (hs : s.tasks.Sound) (h : b.bindBody (b.bindNode room) node id params s = .error e s')
    (hp : g → b.pattern.Closed) (hn : g → b.pattern.Has node)
    (he : g → b.pattern.element node = .repeat) :
    s.tasks.Replaces s'.tasks ∅ ∅ ∧ (g → b.pattern.Raises e) := by
  have hb := (b.follows_node room).body (b := b) hs node id params
  have hy := yields_body hp (expands_node hp room) hn he params s.random
  generalize b.expandBody (b.expandNode room) node params s.random = x at hb hy
  rw [h] at hb
  cases hb with
  | error hr => exact ⟨hr, hy⟩

end Binder
end Barrage

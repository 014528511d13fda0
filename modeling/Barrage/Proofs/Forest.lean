import Barrage.Proofs.Arena
import Mathlib.Data.Finset.Card
import Mathlib.Data.List.Perm.Basic

namespace Barrage.Arena

/-- The roots stand over a forest of tasks, and `X` are its tasks. Two branches of it share nothing.
A root or child that is not live was given up. -/
inductive Spans (a : Arena) : List TaskId → Finset TaskId → Prop where
  | nil : Spans a [] ∅
  | dead {c : TaskId} {cs : List TaskId} {X : Finset TaskId} (hn : a.get? c = none)
      (hd : a.IsDead c) (hs : Spans a cs X) : Spans a (c :: cs) X
  | live {c : TaskId} {cs : List TaskId} {task : Task} {X Y : Finset TaskId}
      (ht : a.get? c = some task) (hc : Spans a task.children X) (hX : c ∉ X)
      (hs : Spans a cs Y) (hd : Disjoint ({c} ∪ X) Y) : Spans a (c :: cs) ({c} ∪ X ∪ Y)

variable {a a' a'' : Arena} {c id : TaskId} {cs ds : List TaskId} {task : Task}
  {X Y Z : Finset TaskId}

theorem Spans.contains (h : a.Spans cs X) (hm : id ∈ X) : a.contains id = true := by
  induction h with
  | nil => simp at hm
  | dead _ _ _ ih => exact ih hm
  | live ht _ _ _ _ ihc ihs =>
    simp only [Finset.mem_union, Finset.mem_singleton] at hm
    rcases hm with (rfl | hm) | hm
    · exact contains_of_get? ht
    · exact ihc hm
    · exact ihs hm

theorem Spans.single (ht : a.get? c = some task) (hc : a.Spans task.children X) (hX : c ∉ X) :
    a.Spans [c] ({c} ∪ X) := by
  simpa using Spans.live ht hc hX .nil (Finset.disjoint_empty_right _)

theorem Spans.append (h₁ : a.Spans cs X) (h₂ : a.Spans ds Y) (hd : Disjoint X Y) :
    a.Spans (cs ++ ds) (X ∪ Y) := by
  induction h₁ with
  | nil => simpa using h₂
  | dead hn hdc _ ih => exact .dead hn hdc (ih hd)
  | live ht hc hX _ hXZ _ ihs =>
    rw [Finset.disjoint_union_left] at hd
    rw [Finset.union_assoc]
    exact .live ht hc hX (ihs hd.2) (Finset.disjoint_union_right.2 ⟨hXZ, hd.1⟩)

theorem Spans.of_append (h : a.Spans (cs ++ ds) Z) :
    ∃ X Y, a.Spans cs X ∧ a.Spans ds Y ∧ Disjoint X Y ∧ Z = X ∪ Y := by
  induction cs generalizing Z with
  | nil => exact ⟨∅, Z, .nil, h, Finset.disjoint_empty_left _, by simp⟩
  | cons c cs ih =>
    cases h with
    | dead hn hdc hs =>
      obtain ⟨X, Y, hX, hY, hd, rfl⟩ := ih hs
      exact ⟨X, Y, .dead hn hdc hX, hY, hd, rfl⟩
    | @live _ _ task V W ht hc hV hs hd =>
      obtain ⟨X, Y, hX, hY, hXY, rfl⟩ := ih hs
      rw [Finset.disjoint_union_right] at hd
      refine ⟨{c} ∪ V ∪ X, Y, .live ht hc hV hX hd.1, hY, ?_, ?_⟩
      · exact Finset.disjoint_union_left.2 ⟨hd.2, hXY⟩
      · rw [← Finset.union_assoc]

theorem Spans.of_cons (h : a.Spans (c :: cs) Z) :
    ∃ X Y, a.Spans [c] X ∧ a.Spans cs Y ∧ Disjoint X Y ∧ Z = X ∪ Y := by
  rw [← List.singleton_append] at h
  exact h.of_append

theorem Spans.cons (h₁ : a.Spans [c] X) (h₂ : a.Spans cs Y) (hd : Disjoint X Y) :
    a.Spans (c :: cs) (X ∪ Y) := by
  rw [← List.singleton_append]
  exact h₁.append h₂ hd

theorem Spans.perm (h : a.Spans cs X) (hp : cs.Perm ds) : a.Spans ds X := by
  induction hp generalizing X with
  | nil => exact h
  | cons c _ ih =>
    obtain ⟨Y, Z, hY, hZ, hd, rfl⟩ := h.of_cons
    exact hY.cons (ih hZ) hd
  | swap c d cs =>
    obtain ⟨Y, Z, hY, hZ, hd, rfl⟩ := h.of_cons
    obtain ⟨V, W, hV, hW, hd', rfl⟩ := hZ.of_cons
    rw [Finset.disjoint_union_right] at hd
    rw [Finset.union_left_comm]
    apply hV.cons (hY.cons hW hd.2)
    exact Finset.disjoint_union_right.2 ⟨hd.1.symm, hd'⟩
  | trans _ _ ih₁ ih₂ => exact ih₂ (ih₁ h)

/-- A tree with a live root is the root and the forest of its children. -/
theorem Spans.of_live (h : a.Spans [c] X) (ht : a.get? c = some task) :
    ∃ Y, a.Spans task.children Y ∧ c ∉ Y ∧ X = {c} ∪ Y := by
  cases h with
  | dead hn _ _ =>
    rw [hn] at ht
    cases ht
  | @live _ _ task' Y Z ht' hc hY hs _ =>
    cases hs
    rw [ht', Option.some.injEq] at ht
    subst ht
    exact ⟨Y, hc, hY, by simp⟩

theorem Spans.of_dead (h : a.Spans [c] X) (hn : a.get? c = none) : X = ∅ ∧ a.IsDead c := by
  cases h with
  | dead _ hd hs =>
    cases hs
    exact ⟨rfl, hd⟩
  | live ht =>
    rw [hn] at ht
    cases ht

theorem Spans.mem_of_live (h : a.Spans cs X) (hc : c ∈ cs) (hl : a.contains c = true) :
    c ∈ X := by
  induction h with
  | nil => cases hc
  | dead hn _ _ ih =>
    rcases List.mem_cons.1 hc with rfl | hc
    · simp [Arena.contains, hn] at hl
    · exact ih hc
  | live _ _ _ _ _ _ ihs =>
    rcases List.mem_cons.1 hc with rfl | hc
    · simp
    · exact Finset.mem_union_right _ (ihs hc)

theorem spans_of_dead (h : ∀ c ∈ cs, a.get? c = none ∧ a.IsDead c) : a.Spans cs ∅ := by
  induction cs with
  | nil => exact .nil
  | cons c cs ih =>
    obtain ⟨hn, hd⟩ := h c List.mem_cons_self
    exact .dead hn hd (ih fun k hk => h k (List.mem_cons_of_mem _ hk))

/-- Only the children of the tasks in it decide whether a forest is there, as long as nothing that
was given up comes back. -/
theorem Spans.transport (h : a.Spans cs X) (hg : a.Grows a')
    (hn : ∀ c, a.IsDead c → a.get? c = none → a'.get? c = none)
    (hk : ∀ id ∈ X, ∀ task, a.get? id = some task →
      ∃ task', a'.get? id = some task' ∧ task'.children = task.children) : a'.Spans cs X := by
  induction h with
  | nil => exact .nil
  | dead hc hd _ ih => exact .dead (hn _ hd hc) (hd.grows hg) (ih hk)
  | @live c cs task X Y ht hc hX hs hd ihc ihs =>
    obtain ⟨task', ht', he⟩ := hk c (by simp) task ht
    refine .live ht' (he ▸ ihc ?_) hX (ihs ?_) hd
    · exact fun id hm => hk id (Finset.mem_union_left _ (Finset.mem_union_right _ hm))
    · exact fun id hm => hk id (Finset.mem_union_right _ hm)

theorem Spans.modify (h : a.Spans cs X) {f : Task → Task}
    (hf : ∀ task, (f task).children = task.children) : (a.modify id f).Spans cs X := by
  refine h.transport grows_modify ?_ ?_
  · intro c _ hn
    apply get?_eq_none
    rw [contains_modify]
    simp [Arena.contains, hn]
  · intro k _ task ht
    rw [get?_modify]
    split
    · rename_i hk
      subst hk
      exact ⟨f task, by simp [ht], hf task⟩
    · exact ⟨task, ht, rfl⟩

/-- A forest apart from what is replaced stays as it is. -/
theorem Spans.apart (h : a.Spans cs Z) (hr : a.Replaces a' X Y) (hd : Disjoint X Z)
    (hw : a'.NoWrap) : a'.Spans cs Z := by
  apply h.transport hr.grows (fun c hc _ => (hc.grows hr.grows).get? hw)
  intro id hm task ht
  exact ⟨task, by rw [hr.kept id (h.contains hm) (Finset.disjoint_right.1 hd hm), ht], rfl⟩

theorem Spans.outlive (h : a.Spans cs Z) (hr : a.Replaces a' X ∅) (hd : Disjoint X Z) :
    a'.Spans cs Z := by
  refine h.transport hr.grows (fun c _ hn => get?_eq_none fun hc => ?_) fun id hm task ht => ?_
  · rcases hr.only c hc with hm | ⟨hc', _⟩
    · simp at hm
    · simp [Arena.contains, hn] at hc'
  · exact ⟨task, by rw [hr.kept id (h.contains hm) (Finset.disjoint_right.1 hd hm), ht], rfl⟩

theorem Spans.firstLive? (h : a.Spans cs X) :
    (a.firstLive? cs = none ∧ X = ∅) ∨
    ∃ id task rest Y Z, a.firstLive? cs = some (id, task, rest) ∧ a.get? id = some task ∧
      a.Spans task.children Y ∧ id ∉ Y ∧ a.Spans rest Z ∧ Disjoint ({id} ∪ Y) Z ∧
      X = {id} ∪ Y ∪ Z := by
  induction h with
  | nil => exact .inl ⟨rfl, rfl⟩
  | dead hn _ _ ih =>
    simp only [Arena.firstLive?, hn]
    exact ih
  | @live c cs task Y Z ht hc hY hs hd _ _ =>
    refine .inr ⟨c, task, cs, Y, Z, ?_, ht, hc, hY, hs, hd, rfl⟩
    simp only [Arena.firstLive?, ht]

theorem Spans.card_le (h : a.Spans cs X) : X.card ≤ a.store.slots.size := by
  have slot (id) (hm : id ∈ X) : ∃ slot, a.store.slot? id = some slot := by
    obtain ⟨task, ht⟩ := contains_iff.1 (h.contains hm)
    obtain ⟨n, hn⟩ := Store.get?_eq_some.1 ht
    exact ⟨_, hn⟩
  rw [← Finset.card_range a.store.slots.size]
  apply Finset.card_le_card_of_injOn Handle.index
  · intro id hm
    obtain ⟨slot, hs⟩ := slot id hm
    obtain ⟨hi, _⟩ := Array.getElem?_eq_some_iff.1 (Store.slot?_eq_some.1 hs).1
    simpa using hi
  · intro id hm k hk he
    obtain ⟨_, hs⟩ := slot id hm
    obtain ⟨_, hs'⟩ := slot k hk
    exact Store.eq_of_slot? hs hs' he

/-- As many rounds as there are tasks release a forest, and nothing else. -/
theorem Spans.releaseFrom {rounds : Nat} (h : a.Spans cs X) (hs : a.Sound)
    (hr : X.card ≤ rounds) :
    a.Replaces (Arena.releaseFrom rounds cs a).2 X ∅ ∧
      (Arena.releaseFrom rounds cs a).1 = X.card := by
  induction rounds generalizing cs a X with
  | zero =>
    have hX : X = ∅ := Finset.card_eq_zero.1 (Nat.le_zero.1 hr)
    subst hX
    exact ⟨.refl hs _, rfl⟩
  | succ rounds ih =>
    rw [Arena.releaseFrom]
    rcases h.firstLive? with ⟨he, rfl⟩ | ⟨id, task, rest, Y, Z, he, ht, hY, hiY, hZ, hd, rfl⟩
    · rw [he]
      exact ⟨.refl hs _, rfl⟩
    · rw [he]
      obtain ⟨hiZ, hYZ⟩ := Finset.disjoint_union_left.1 hd
      have hiY := Finset.disjoint_singleton_left.2 hiY
      have hiYZ := Finset.disjoint_union_right.2 ⟨hiY, hiZ⟩
      have hrem := hs.replaces_remove (contains_of_get? ht)
      have hstack : (a.remove id).Spans (task.children.reverse ++ rest) (Y ∪ Z) :=
        ((hY.outlive hrem hiY).perm (List.reverse_perm _).symm).append (hZ.outlive hrem hiZ) hYZ
      have hlive : ∀ k ∈ Y ∪ Z, a.contains k = true := fun k hk =>
        (Finset.mem_union.1 hk).elim hY.contains hZ.contains
      have hframe := hrem.frame hlive hiYZ
      have hcard := Finset.card_union_of_disjoint hiYZ
      rw [Finset.card_singleton] at hcard
      rw [Finset.empty_union] at hframe
      rw [Finset.union_assoc] at hr ⊢
      obtain ⟨hrep, hcount⟩ := ih hstack hrem.sound (by omega)
      exact ⟨hframe.trans hrep, by simp only; omega⟩

theorem Spans.release (h : a.Spans [c] X) (hs : a.Sound) : a.Replaces (a.release c).2 X ∅ :=
  (h.releaseFrom hs h.card_le).1

theorem Spans.release_root (h : a.Spans [c] X) (hs : a.Sound) :
    (a.release c).2.get? c = none ∧ (a.release c).2.IsDead c := by
  have hr := h.release hs
  have out (hc : (a.release c).2.contains c = true) : a.contains c = true ∧ c ∉ X :=
    (hr.only c hc).resolve_left (Finset.notMem_empty c)
  cases hg : a.get? c with
  | none =>
    refine ⟨get?_eq_none fun hc => ?_, (h.of_dead hg).2.grows hr.grows⟩
    simpa [Arena.contains, hg] using (out hc).1
  | some task =>
    have hm := h.mem_of_live (List.mem_singleton_self c) (contains_of_get? hg)
    exact ⟨get?_eq_none fun hc => (out hc).2 hm, hr.dead c hm (Finset.notMem_empty c)⟩

theorem Spans.releaseAll (h : a.Spans cs X) (hs : a.Sound) : a.Replaces (a.releaseAll cs) X ∅ := by
  induction cs generalizing a X with
  | nil =>
    cases h
    exact .refl hs _
  | cons c cs ih =>
    obtain ⟨Y, Z, hY, hZ, hd, rfl⟩ := h.of_cons
    have hrel := hY.release hs
    have hframe := hrel.frame (fun id hm => hZ.contains hm) hd
    rw [Finset.empty_union] at hframe
    exact hframe.trans (ih (hZ.outlive hrel hd) hrel.sound)

end Barrage.Arena

import Barrage.Proofs.Gauge
import Barrage.Proofs.Scoping

namespace Barrage

/-- The task runs the tasks below it, one after the other. -/
def TaskKind.isGroup : TaskKind → Bool
  | .action | .bullet => true
  | _ => false

theorem TaskKind.isGroup_shape (kind : TaskKind) : kind.shape.isGroup = kind.isGroup := by
  cases kind <;> rfl

theorem TaskKind.isGroup_of_isLeaf {kind : TaskKind} (h : kind.isLeaf = true) :
    kind.isGroup = false := by
  cases kind with
  | action => cases h
  | bullet => cases h
  | _ => rfl

/-- The task has not run since it was bound. -/
structure Task.Fresh (task : Task) : Prop where
  pending : task.isFinished = false
  kind : task.kind.shape = task.kind

/-- Tasks that are run in order, each with what follows it: leaves, and groups of what is below
them. -/
inductive Agenda where
  | nil
  | leaf (id : TaskId) (next : Agenda)
  | group (id : TaskId) (below next : Agenda)

namespace Agenda

def roots : Agenda → List TaskId
  | nil => []
  | leaf id next => id :: next.roots
  | group id _ next => id :: next.roots

/-- The leaves in document order. -/
def leaves : Agenda → List TaskId
  | nil => []
  | leaf id next => id :: next.leaves
  | group _ below next => below.leaves ++ next.leaves

def ids : Agenda → List TaskId
  | nil => []
  | leaf id next => id :: next.ids
  | group id below next => id :: (below.ids ++ next.ids)

def append : Agenda → Agenda → Agenda
  | nil, more => more
  | leaf id next, more => leaf id (next.append more)
  | group id below next, more => group id below (next.append more)

/-- The tasks of an arena are as the agenda has them. -/
def Stands (a : Arena) : Agenda → Prop
  | nil => True
  | leaf id next => (∃ task, a.get? id = some task ∧ task.kind.isLeaf = true) ∧ next.Stands a
  | group id below next =>
    (∃ task, a.get? id = some task ∧ task.kind.isGroup = true ∧ task.children = below.roots) ∧
      below.Stands a ∧ next.Stands a

def Fresh (a : Arena) (A : Agenda) : Prop :=
  ∀ id ∈ A.ids, ∃ task, a.get? id = some task ∧ task.Fresh

variable {a a' : Arena} {A B : Agenda} {id : TaskId}

@[simp] theorem roots_append (A B : Agenda) : (A.append B).roots = A.roots ++ B.roots := by
  induction A with
  | nil => rfl
  | leaf id next ih => rw [append, roots, roots, ih, List.cons_append]
  | group id below next _ ih => rw [append, roots, roots, ih, List.cons_append]

@[simp] theorem leaves_append (A B : Agenda) : (A.append B).leaves = A.leaves ++ B.leaves := by
  induction A with
  | nil => rfl
  | leaf id next ih => rw [append, leaves, leaves, ih, List.cons_append]
  | group id below next _ ih => rw [append, leaves, leaves, ih, List.append_assoc]

@[simp] theorem ids_append (A B : Agenda) : (A.append B).ids = A.ids ++ B.ids := by
  induction A with
  | nil => rfl
  | leaf id next ih => rw [append, ids, ids, ih, List.cons_append]
  | group id below next _ ih =>
    rw [append, ids, ids, ih, List.cons_append, List.append_assoc]

theorem stands_append : (A.append B).Stands a ↔ A.Stands a ∧ B.Stands a := by
  induction A with
  | nil => simp [append, Stands]
  | leaf id next ih => simp [append, Stands, ih, and_assoc]
  | group id below next _ ih => simp [append, Stands, ih, and_assoc]

theorem fresh_append : (A.append B).Fresh a ↔ A.Fresh a ∧ B.Fresh a := by
  simp [Fresh, or_imp, forall_and]

theorem Stands.live (h : A.Stands a) (hm : id ∈ A.ids) : ∃ task, a.get? id = some task := by
  induction A with
  | nil => cases hm
  | leaf k next ih =>
    obtain ⟨⟨task, ht, _⟩, hnext⟩ := h
    rcases List.mem_cons.1 hm with rfl | hm
    · exact ⟨task, ht⟩
    · exact ih hnext hm
  | group k below next ihb ih =>
    obtain ⟨⟨task, ht, _⟩, hbelow, hnext⟩ := h
    rcases List.mem_cons.1 hm with rfl | hm
    · exact ⟨task, ht⟩
    · rcases List.mem_append.1 hm with hm | hm
      · exact ihb hbelow hm
      · exact ih hnext hm

theorem Stands.of_agree (h : A.Stands a) (ha : ∀ id ∈ A.ids, a'.get? id = a.get? id) :
    A.Stands a' := by
  induction A with
  | nil => trivial
  | leaf id next ih =>
    obtain ⟨⟨task, ht, hl⟩, hnext⟩ := h
    exact ⟨⟨task, (ha id List.mem_cons_self).trans ht, hl⟩,
      ih hnext fun k hk => ha k (List.mem_cons_of_mem _ hk)⟩
  | group id below next ihb ih =>
    obtain ⟨⟨task, ht, hg⟩, hbelow, hnext⟩ := h
    exact ⟨⟨task, (ha id List.mem_cons_self).trans ht, hg⟩,
      ihb hbelow fun k hk => ha k (List.mem_cons_of_mem _ (List.mem_append_left _ hk)),
      ih hnext fun k hk => ha k (List.mem_cons_of_mem _ (List.mem_append_right _ hk))⟩

theorem mem_ids_of_root (hm : id ∈ A.roots) : id ∈ A.ids := by
  induction A with
  | nil => cases hm
  | leaf k next ih => exact List.mem_cons.2 ((List.mem_cons.1 hm).imp_right ih)
  | group k below next _ ih =>
    refine List.mem_cons.2 ((List.mem_cons.1 hm).imp_right fun hm => ?_)
    exact List.mem_append_right _ (ih hm)

/-- A root that is a group in one arena is so wherever the agenda stands. -/
theorem Stands.group {task : Task} (h : A.Stands a) (h' : A.Stands a') (hm : id ∈ A.roots)
    (ht : a.get? id = some task) (hg : task.kind.isGroup = true) :
    ∃ task', a'.get? id = some task' ∧ task'.kind.isGroup = true := by
  induction A with
  | nil => cases hm
  | leaf k next ih =>
    obtain ⟨⟨leaf, hleaf, hl⟩, hnext⟩ := h
    rcases List.mem_cons.1 hm with rfl | hm
    · rw [ht, Option.some.injEq] at hleaf
      subst hleaf
      rw [TaskKind.isGroup_of_isLeaf hl] at hg
      cases hg
    · exact ih hnext h'.2 hm
  | group k below next _ ih =>
    rcases List.mem_cons.1 hm with rfl | hm
    · obtain ⟨⟨task', ht', hg', _⟩, _⟩ := h'
      exact ⟨task', ht', hg'⟩
    · exact ih h.2.2 h'.2.2 hm

end Agenda

namespace Turn

/-- Every live task stays in its place, and only those of `X` go on with their work. -/
structure Tends (t t' : Turn) (X : List TaskId) : Prop where
  vanished : t'.bullet.vanished = t.bullet.vanished
  kept : ∀ id task, t.tasks.get? id = some task → ∃ task', t'.tasks.get? id = some task' ∧
    task'.children = task.children ∧ task'.kind.shape = task.kind.shape ∧ (id ∉ X → task' = task)

variable {p : Pattern} {fuel : Nat} {t t' t'' : Turn} {id : TaskId} {ids X Y : List TaskId}
  {task : Task} {r : Except PatternError Status} {calls : List Call} {status : Status} {A : Agenda}

theorem Tends.refl (t : Turn) (X : List TaskId) : t.Tends t X :=
  ⟨rfl, fun _ task ht => ⟨task, ht, rfl, rfl, fun _ => rfl⟩⟩

theorem Tends.trans (h₁ : t.Tends t' X) (h₂ : t'.Tends t'' X) : t.Tends t'' X where
  vanished := h₂.vanished.trans h₁.vanished
  kept id task ht := by
    obtain ⟨task', ht', hc, hs, hk⟩ := h₁.kept id task ht
    obtain ⟨task'', ht'', hc', hs', hk'⟩ := h₂.kept id task' ht'
    exact ⟨task'', ht'', hc'.trans hc, hs'.trans hs, fun hn => (hk' hn).trans (hk hn)⟩

theorem Tends.mono (h : t.Tends t' X) (hs : X ⊆ Y) : t.Tends t' Y where
  vanished := h.vanished
  kept id task ht := by
    obtain ⟨task', ht', hc, hk, he⟩ := h.kept id task ht
    exact ⟨task', ht', hc, hk, fun hn => he fun hm => hn (hs hm)⟩

theorem Tends.get? (h : t.Tends t' X) (ht : t.tasks.get? id = some task) (hn : id ∉ X) :
    t'.tasks.get? id = some task := by
  obtain ⟨task', ht', _, _, hk⟩ := h.kept id task ht
  rw [ht', hk hn]

theorem Tends.stands (h : t.Tends t' X) (hA : A.Stands t.tasks) : A.Stands t'.tasks := by
  induction A with
  | nil => trivial
  | leaf id next ih =>
    obtain ⟨⟨task, ht, hl⟩, hnext⟩ := hA
    obtain ⟨task', ht', _, hs, _⟩ := h.kept id task ht
    exact ⟨⟨task', ht', by rwa [← TaskKind.isLeaf_shape, hs, TaskKind.isLeaf_shape]⟩, ih hnext⟩
  | group id below next ihb ih =>
    obtain ⟨⟨task, ht, hg, hc⟩, hbelow, hnext⟩ := hA
    obtain ⟨task', ht', hc', hs, _⟩ := h.kept id task ht
    exact ⟨⟨task', ht', by rwa [← TaskKind.isGroup_shape, hs, TaskKind.isGroup_shape],
      hc'.trans hc⟩, ihb hbelow, ih hnext⟩

theorem tends_modify {f : Task → Task} (hv : t'.bullet.vanished = t.bullet.vanished)
    (ht' : t'.tasks = t.tasks.modify id f) (ht : t.tasks.get? id = some task)
    (hf : (f task).children = task.children ∧ (f task).kind.shape = task.kind.shape) :
    t.Tends t' [id] where
  vanished := hv
  kept k taskₖ hk := by
    rw [ht', Arena.get?_modify]
    by_cases he : k = id
    · subst he
      rw [ht, Option.some.injEq] at hk
      subst hk
      rw [if_pos rfl, ht]
      exact ⟨f task, rfl, hf.1, hf.2, fun hn => absurd List.mem_cons_self hn⟩
    · rw [if_neg he]
      exact ⟨taskₖ, hk, rfl, rfl, fun _ => rfl⟩

theorem tends_start (ht : t.tasks.get? id = some task) : t.Tends (t.start id) [id] :=
  tends_modify rfl rfl ht ⟨rfl, rfl⟩

theorem tends_close (ht : t.tasks.get? id = some task) : t.Tends (t.close id r) [id] := by
  unfold close
  split
  · exact tends_modify rfl rfl ht ⟨rfl, rfl⟩
  · exact .refl t _

theorem Acts.tends (h : Acts p id task t r t') (hs : t.tasks.Sound)
    (ht : t.tasks.get? id = some (task.advance .running)) (hv : task.kind ≠ .vanish) :
    t.Tends t' [id] := by
  have spared (hb : t'.bullet.vanished = t.bullet.vanished)
      (hk : ∀ c, t.tasks.contains c = true → t'.tasks.get? c = t.tasks.get? c) :
      t.Tends t' [id] :=
    ⟨hb, fun k taskₖ hget =>
      ⟨taskₖ, (hk k (Arena.contains_of_get? hget)).trans hget, rfl, rfl, fun _ => rfl⟩⟩
  have hall (hf : task.kind.isFire = true) (c : TaskId) (hc : t.tasks.contains c = true) :
      t'.tasks.get? c = t.tasks.get? c := h.kept hs hc (.inr hf)
  cases h with
  | steers hk => exact tends_modify rfl rfl ht ⟨rfl, hk⟩
  | vanishes hk => exact absurd hk hv
  | empty => exact .refl t _
  | unheld => exact .refl t _
  | drops => exact spared rfl fun _ _ => rfl
  | misfires hk => exact spared rfl (hall (by rw [hk]; rfl))
  | fires hk => exact spared rfl (hall (by rw [hk]; rfl))

/-- A leaf that is run, or a group, works on nothing but what is its own. -/
theorem Runs.tends_task (h : Runs p fuel (.task id) t calls r t') (hs : t.tasks.Sound)
    (ht : t.tasks.get? id = some task) (hk : task.kind.isLeaf = true ∨ task.kind.isGroup = true)
    (hc : task.kind.isGroup = true → ∀ fuel t' calls r t'', t.Tends t' [id] → t'.tasks.Sound →
      Runs p fuel (.sequence task.children .ended) t' calls r t'' → t'.Tends t'' X) :
    t.Tends t' (id :: X) := by
  have closing {t₁ : Turn} (h₁ : t.Tends t₁ (id :: X)) : t.Tends (t₁.close id r) (id :: X) := by
    obtain ⟨task₁, ht₁, _⟩ := h₁.kept id task ht
    exact h₁.trans ((tends_close ht₁).mono (by simp))
  have hstart := (tends_start ht).mono (show [id] ⊆ id :: X by simp)
  have hsound : (t.start id).tasks.Sound := (evolves_start id hs).sound
  cases h with
  | exhausted => exact .refl t _
  | stale => exact .refl t _
  | finished => exact .refl t _
  | leaf ht' hf ha =>
    rw [ht, Option.some.injEq] at ht'
    subst ht'
    have hv : task.kind ≠ .vanish := by
      intro hv
      rcases hk with hk | hk <;> rw [hv] at hk <;> cases hk
    exact closing (hstart.trans ((ha.tends hsound (get?_start ht) hv).mono (by simp)))
  | composite ht' hf hkind hr =>
    rw [ht, Option.some.injEq] at ht'
    subst ht'
    have hg : task.kind.isGroup = true := by rcases hkind with hkind | hkind <;> rw [hkind] <;> rfl
    exact closing (hstart.trans ((hc hg _ _ _ _ _ (tends_start ht) hsound hr).mono (by simp)))
  | «repeat» ht' _ hkind =>
    rw [ht, Option.some.injEq] at ht'
    subst ht'
    rcases hk with hk | hk <;> rw [hkind] at hk <;> cases hk

theorem Runs.tends_cons (h : Runs p fuel (.sequence (id :: ids) status) t calls r t')
    (hs : t.tasks.Sound)
    (hhead : ∀ calls r t', Runs p fuel (.task id) t calls r t' → t.Tends t' X)
    (htail : ∀ status t₁ calls r t', t.Tends t₁ X → t₁.tasks.Sound →
      Runs p fuel (.sequence ids status) t₁ calls r t' → t₁.Tends t' Y) :
    t.Tends t' (X ++ Y) := by
  cases h with
  | skip _ hr => exact (htail _ _ _ _ _ (.refl t X) hs hr).mono (by simp)
  | halt _ hr => exact (hhead _ _ _ hr).mono (by simp)
  | cut _ hr => exact (hhead _ _ _ hr).mono (by simp)
  | next _ hr _ _ hrest =>
    have h₁ := hhead _ _ _ hr
    have h₂ := htail _ _ _ _ _ h₁ (hr.evolves hs).sound hrest
    exact (h₁.mono (by simp)).trans (h₂.mono (by simp))

/-- What is run of an agenda works on its own tasks only. -/
theorem Runs.tends (h : Runs p fuel (.sequence A.roots status) t calls r t') (hs : t.tasks.Sound)
    (hA : A.Stands t.tasks) : t.Tends t' A.ids := by
  induction A generalizing fuel status t calls r t' with
  | nil =>
    cases h
    exact .refl _ _
  | leaf id next ih =>
    obtain ⟨⟨task, ht, hl⟩, hnext⟩ := hA
    refine h.tends_cons (X := [id]) hs ?_ ?_
    · intro calls r t₁ hr
      refine hr.tends_task hs ht (.inl hl) fun hg => ?_
      rw [TaskKind.isGroup_of_isLeaf hl] at hg
      cases hg
    · exact fun _ _ _ _ _ h₁ hs₁ hr => ih hr hs₁ (h₁.stands hnext)
  | group id below next ihb ih =>
    obtain ⟨⟨task, ht, hg, hc⟩, hbelow, hnext⟩ := hA
    refine h.tends_cons (X := id :: below.ids) hs ?_ ?_
    · intro calls r t₁ hr
      refine hr.tends_task hs ht (.inr hg) fun _ => ?_
      rw [hc]
      exact fun _ _ _ _ _ h₁ hs₁ hr => ihb hr hs₁ (h₁.stands hbelow)
    · exact fun _ _ _ _ _ h₁ hs₁ hr => ih hr hs₁ (h₁.stands hnext)

end Turn
end Barrage

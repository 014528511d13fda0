import Barrage.Proofs.Play
import Barrage.Proofs.Turn

namespace Barrage

/-- The tasks `cs` stand over these trees. A task that is not live shows nothing. -/
inductive Arena.Shows (a : Arena) : List TaskId → List WorkTree → Prop where
  | nil : Shows a [] []
  | dead {c : TaskId} {cs : List TaskId} {ws : List WorkTree} (hn : a.get? c = none)
      (hs : Shows a cs ws) : Shows a (c :: cs) ws
  | live {c : TaskId} {cs : List TaskId} {task : Task} {below ws : List WorkTree}
      (ht : a.get? c = some task) (hc : Shows a task.children below) (hs : Shows a cs ws) :
      Shows a (c :: cs) (.node task.node task.params task.kind task.phase below :: ws)

namespace Arena

variable {a a' : Arena} {id c : TaskId} {cs ds : List TaskId} {task : Task} {w : WorkTree}
  {ws vs below : List WorkTree} {X Y Z : Finset TaskId}

theorem Shows.single (ht : a.get? c = some task) (hc : a.Shows task.children below) :
    a.Shows [c] [.node task.node task.params task.kind task.phase below] :=
  .live ht hc .nil

theorem Shows.append (h₁ : a.Shows cs ws) (h₂ : a.Shows ds vs) : a.Shows (cs ++ ds) (ws ++ vs) := by
  induction h₁ with
  | nil => exact h₂
  | dead hn _ ih => exact .dead hn ih
  | live ht hc _ _ ih => exact .live ht hc ih

/-- A live task shows its own tree. -/
theorem Shows.of_live (h : a.Shows (c :: cs) ws) (ht : a.get? c = some task) :
    ∃ below rest, ws = .node task.node task.params task.kind task.phase below :: rest ∧
      a.Shows task.children below ∧ a.Shows cs rest := by
  cases h with
  | dead hn =>
    rw [hn] at ht
    cases ht
  | live ht' hc hs =>
    rw [ht', Option.some.injEq] at ht
    subst ht
    exact ⟨_, _, rfl, hc, hs⟩

theorem Shows.of_dead (h : a.Shows (c :: cs) ws) (hn : a.get? c = none) : a.Shows cs ws := by
  cases h with
  | dead _ hs => exact hs
  | live ht =>
    rw [hn] at ht
    cases ht

/-- Only the tasks of a forest decide what it shows, as long as nothing that was given up comes
back. -/
theorem Shows.transport (h : a.Shows cs ws) (hs : a.Spans cs X)
    (hn : ∀ c, a.IsDead c → a.get? c = none → a'.get? c = none)
    (hk : ∀ id ∈ X, a'.get? id = a.get? id) : a'.Shows cs ws := by
  induction hs generalizing ws with
  | nil =>
    cases h
    exact .nil
  | dead hc hd _ ih => exact .dead (hn _ hd hc) (ih (h.of_dead hc) hk)
  | @live c cs task X Y ht hc hX hs hd ihc ihs =>
    obtain ⟨below, rest, rfl, hbelow, hrest⟩ := h.of_live ht
    have hself : a'.get? c = some task := (hk c (by simp)).trans ht
    apply Shows.live hself
    · exact ihc hbelow fun id hm => hk id (by simp [hm])
    · exact ihs hrest fun id hm => hk id (by simp [hm])

theorem Shows.apart (h : a.Shows cs ws) (hs : a.Spans cs Z) (hr : a.Replaces a' X Y)
    (hd : Disjoint X Z) (hw : a'.NoWrap) : a'.Shows cs ws := by
  apply h.transport hs (fun c hc _ => (hc.grows hr.grows).get? hw)
  intro id hm
  exact hr.kept id (hs.contains hm) (Finset.disjoint_right.1 hd hm)

theorem Shows.outlive (h : a.Shows cs ws) (hs : a.Spans cs Z) (hr : a.Replaces a' X ∅)
    (hd : Disjoint X Z) : a'.Shows cs ws := by
  apply h.transport hs
  · intro c _ hn
    apply get?_eq_none
    intro hc
    rcases hr.only c hc with hm | ⟨hc', _⟩
    · exact absurd hm (Finset.notMem_empty c)
    · simp [Arena.contains, hn] at hc'
  · intro id hm
    exact hr.kept id (hs.contains hm) (Finset.disjoint_right.1 hd hm)

/-- A forest does not show what is done to a live task outside it. -/
theorem Shows.beside (h : a.Shows cs ws) (hs : a.Spans cs X) (hid : id ∉ X)
    (hl : a.contains id = true) (hk : ∀ k, k ≠ id → a'.get? k = a.get? k) : a'.Shows cs ws := by
  apply h.transport hs
  · intro c _ hn
    have hne : c ≠ id := by
      rintro rfl
      simp [Arena.contains, hn] at hl
    rw [hk c hne, hn]
  · intro k hm
    exact hk k fun he => hid (he ▸ hm)

/-- The owner of a task is not shown. -/
theorem Shows.own (h : a.Shows cs ws) {owner : Option TaskId} :
    (a.modify id fun task => { task with owner }).Shows cs ws := by
  induction h with
  | nil => exact .nil
  | dead hn _ ih =>
    apply Shows.dead _ ih
    apply get?_eq_none
    rw [contains_modify]
    simp [Arena.contains, hn]
  | @live c cs task below ws ht _ _ ihc ihs =>
    by_cases hc : c = id
    · subst hc
      have hself : (a.modify c fun task => { task with owner }).get? c =
          some { task with owner } := by
        rw [get?_modify, if_pos rfl, ht]
        rfl
      have h := Shows.live hself ihc ihs
      exact h
    · have hself : (a.modify id fun task => { task with owner }).get? c = some task := by
        rw [get?_modify, if_neg hc, ht]
      exact .live hself ihc ihs

theorem Holds.shows {owner : Option TaskId} {trees : List TaskTree}
    (h : a.Holds owner cs trees X) : a.Shows cs (TaskTree.freshAll trees) := by
  induction h with
  | nil => exact .nil
  | cons ht _ _ _ _ ihc ihs => exact .live ht ihc ihs

theorem isFinished_of_live (ht : a.get? c = some task) : a.isFinished c = task.isFinished := by
  rw [Arena.isFinished, ht]

theorem isFinished_of_dead (hn : a.get? c = none) : a.isFinished c = true := by
  rw [Arena.isFinished, hn]

theorem isFinished_shown (ht : a.get? c = some task) {finished : Bool}
    (hf : a.isFinished c = finished) :
    (WorkTree.node task.node task.params task.kind task.phase below).isFinished = finished :=
  (isFinished_of_live ht).symm.trans hf

/-- The bullets are as these actors: they move alike, and their tasks show the same trees. -/
def Casts (a : Arena) (bs : List Bullet) (actors : List Actor) : Prop :=
  List.Forall₂ (fun b actor => b.motion = actor.motion ∧ a.Shows b.tasks actor.roots) bs actors

variable {bs bs' : List Bullet} {actors actors' : List Actor}

theorem Casts.append (h₁ : a.Casts bs actors) (h₂ : a.Casts bs' actors') :
    a.Casts (bs ++ bs') (actors ++ actors') :=
  List.rel_append h₁ h₂

theorem Casts.apart (h : a.Casts bs actors) (hs : a.Spans (bs.flatMap Bullet.tasks) Z)
    (hr : a.Replaces a' X Y) (hd : Disjoint X Z) (hw : a'.NoWrap) : a'.Casts bs actors := by
  induction h generalizing Z with
  | nil => exact .nil
  | cons hb _ ih =>
    rw [List.flatMap_cons] at hs
    obtain ⟨Z₁, Z₂, hs₁, hs₂, _, rfl⟩ := hs.of_append
    rw [Finset.disjoint_union_right] at hd
    exact .cons ⟨hb.1, hb.2.apart hs₁ hr hd.1 hw⟩ (ih hs₂ hd.2)

end Arena

namespace Turn

theorem shows_own {a : Arena} {fire : TaskId} {roots cs : List TaskId} {ws : List WorkTree}
    (h : a.Shows cs ws) : (own fire roots a).Shows cs ws := by
  induction roots generalizing a with
  | nil => exact h
  | cons root roots ih => exact ih h.own

end Turn

namespace Pool

variable {p p' p'' : Pool} {shots more : List Bullet}

/-- The bullets that were put into play between two states of a pool. -/
def newcomers (p p' : Pool) : List Bullet := (p'.ids.drop p.ids.length).filterMap p'.get?

theorem Adds.newcomers (h : p.Adds p' shots) : p.newcomers p' = shots := by
  rw [Pool.newcomers, h.ids, List.drop_left, filterMap_map_id h.added]

theorem Adds.size (h : p.Adds p' shots) : p'.size = p.size + shots.length := by
  have hids := congrArg List.length h.ids
  rw [List.length_append, List.length_map] at hids
  exact hids

theorem capacity_remove (id : BulletId) : (p.remove id).2.capacity = p.capacity := by
  unfold remove
  split <;> rfl

end Pool
end Barrage

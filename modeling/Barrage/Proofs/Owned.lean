import Barrage.Proofs.Roots

namespace Barrage

/-- The pattern of a bullet, or an empty one. -/
def Bullet.program (b : Bullet) : Pattern := b.pattern.getD (.ofName "")

theorem Bullet.program_of_some {b : Bullet} {p : Pattern} (h : b.pattern = some p) :
    b.program = p := by
  rw [program, h, Option.getD_some]

/-- `X` are the tasks of the bullet. If `g` holds, they are bound to its pattern, and `Q` is known
of that. -/
structure Bullet.Drives (g : Prop) (Q : Pattern → Prop) (a : Arena) (b : Bullet)
    (X : Finset TaskId) : Prop where
  spans : a.Spans b.tasks X
  live : ∀ c ∈ b.tasks, a.contains c = true
  fit : a.Fit g b.program X
  idle : g → b.pattern = none → b.tasks = []
  legal : g → ∀ p, b.pattern = some p → Q p

namespace Bullet.Drives

variable {g : Prop} {Q : Pattern → Prop} {a a' : Arena} {b b' : Bullet} {X Y Z : Finset TaskId}

theorem congr (h : b.Drives g Q a X) (ht : b'.tasks = b.tasks)
    (hp : g → b'.pattern = b.pattern) : b'.Drives g Q a X where
  spans := ht ▸ h.spans
  live := ht ▸ h.live
  fit id hm task hg := by
    obtain ⟨hb, hh⟩ := h.fit id hm task hg
    refine ⟨?_, hh⟩
    intro hgood
    rw [Bullet.program, hp hgood]
    exact hb hgood
  idle hg hn := ht.trans (h.idle hg ((hp hg).symm.trans hn))
  legal hg p he := h.legal hg p ((hp hg).symm.trans he)

theorem bare (ht : b.tasks = []) (hp : g → b.pattern = none) : b.Drives g Q a ∅ where
  spans := ht ▸ .nil
  live := by simp [ht]
  fit := .empty
  idle _ _ := ht
  legal hg p he := by
    rw [hp hg] at he
    cases he

theorem carry (h : b.Drives g Q a Z) (hs : a'.Spans b.tasks Z) (hr : a.Replaces a' X Y)
    (hd : Disjoint X Z) : b.Drives g Q a' Z where
  spans := hs
  live c hc := hr.keeps (h.live c hc)
    (Finset.disjoint_right.1 hd (h.spans.mem_of_live hc (h.live c hc)))
  fit := h.fit.apart h.spans hr hd
  idle := h.idle
  legal := h.legal

end Bullet.Drives

namespace Arena

/-- Each bullet has tasks of its own, and `X` are the tasks of all of them. -/
inductive Owned (g : Prop) (Q : Pattern → Prop) (a : Arena) :
    List Bullet → Finset TaskId → Prop where
  | nil : Owned g Q a [] ∅
  | cons {b : Bullet} {bs : List Bullet} {X Y : Finset TaskId} (hb : b.Drives g Q a X)
      (hs : Owned g Q a bs Y) (hd : Disjoint X Y) : Owned g Q a (b :: bs) (X ∪ Y)

/-- The tasks of the bullets are all tasks there are. -/
structure Tended (g : Prop) (Q : Pattern → Prop) (a : Arena) (bs : List Bullet)
    (X : Finset TaskId) : Prop where
  owned : a.Owned g Q bs X
  only : ∀ id, a.contains id = true → id ∈ X
  count : a.live = X.card

variable {g : Prop} {Q : Pattern → Prop} {a a' : Arena} {b : Bullet}
  {bs cs rest : List Bullet}  {X Y Z : Finset TaskId} {id : TaskId}

namespace Owned

theorem spans (h : a.Owned g Q bs X) : a.Spans (bs.flatMap Bullet.tasks) X := by
  induction h with
  | nil => exact .nil
  | cons hb _ hd ih => exact hb.spans.append ih hd

theorem contains (h : a.Owned g Q bs X) (hm : id ∈ X) : a.contains id = true :=
  h.spans.contains hm

theorem single (hb : b.Drives g Q a X) : a.Owned g Q [b] X := by
  simpa using Owned.cons hb .nil (Finset.disjoint_empty_right X)

theorem append (h₁ : a.Owned g Q bs X) (h₂ : a.Owned g Q cs Y) (hd : Disjoint X Y) :
    a.Owned g Q (bs ++ cs) (X ∪ Y) := by
  induction h₁ with
  | nil => simpa using h₂
  | cons hb _ hbs ih =>
    rw [Finset.disjoint_union_left] at hd
    rw [Finset.union_assoc]
    exact .cons hb (ih hd.2) (Finset.disjoint_union_right.2 ⟨hbs, hd.1⟩)

theorem of_append (h : a.Owned g Q (bs ++ cs) Z) :
    ∃ X Y, a.Owned g Q bs X ∧ a.Owned g Q cs Y ∧ Disjoint X Y ∧ Z = X ∪ Y := by
  induction bs generalizing Z with
  | nil => exact ⟨∅, Z, .nil, h, Finset.disjoint_empty_left _, by simp⟩
  | cons b bs ih =>
    cases h with
    | @cons _ _ V W hb hs hd =>
      obtain ⟨X, Y, hX, hY, hXY, rfl⟩ := ih hs
      rw [Finset.disjoint_union_right] at hd
      exact ⟨V ∪ X, Y, .cons hb hX hd.1, hY, Finset.disjoint_union_left.2 ⟨hd.2, hXY⟩,
        (Finset.union_assoc _ _ _).symm⟩

theorem perm (h : a.Owned g Q bs X) (hp : bs.Perm cs) : a.Owned g Q cs X := by
  induction hp generalizing X with
  | nil => exact h
  | cons b _ ih =>
    cases h with
    | cons hb hs hd => exact .cons hb (ih hs) hd
  | swap b c bs =>
    cases h with
    | @cons _ _ V _ hc hs hd =>
      cases hs with
      | @cons _ _ W Y hb hs hd' =>
        rw [Finset.disjoint_union_right] at hd
        rw [Finset.union_left_comm]
        exact .cons hb (.cons hc hs hd.2) (Finset.disjoint_union_right.2 ⟨hd.1.symm, hd'⟩)
  | trans _ _ ih₁ ih₂ => exact ih₂ (ih₁ h)

theorem drives (h : a.Owned g Q bs X) (hb : b ∈ bs) : ∃ Y ⊆ X, b.Drives g Q a Y := by
  induction h with
  | nil => cases hb
  | cons hc _ _ ih =>
    rcases List.mem_cons.1 hb with rfl | hb
    · exact ⟨_, Finset.subset_union_left, hc⟩
    · obtain ⟨Y, hY, hd⟩ := ih hb
      exact ⟨Y, hY.trans Finset.subset_union_right, hd⟩

theorem carry (h : a.Owned g Q bs Z) (hr : a.Replaces a' X Y) (hd : Disjoint X Z)
    (hw : a'.NoWrap ∨ Y = ∅) : a'.Owned g Q bs Z := by
  induction h with
  | nil => exact .nil
  | cons hb _ hdis ih =>
    rw [Finset.disjoint_union_right] at hd
    refine .cons (hb.carry ?_ hr hd.1) (ih hd.2) hdis
    rcases hw with hw | rfl
    · exact hb.spans.apart hr hd.1 hw
    · exact hb.spans.outlive hr hd.1

theorem of_shots (hs : a.Spans (bs.flatMap Bullet.tasks) X)
    (hl : ∀ b ∈ bs, ∀ c ∈ b.tasks, a.contains c = true) (hf : a.Fit g b.program X)
    (hp : ∀ shot ∈ bs, shot.pattern = b.pattern) (hb : g → ∃ p, b.pattern = some p ∧ Q p) :
    a.Owned g Q bs X := by
  induction bs generalizing X with
  | nil =>
    cases hs
    exact .nil
  | cons shot bs ih =>
    rw [List.flatMap_cons] at hs
    obtain ⟨V, W, hV, hW, hd, rfl⟩ := hs.of_append
    have hpat := hp shot List.mem_cons_self
    refine .cons ⟨hV, hl shot List.mem_cons_self, ?_, ?_, ?_⟩
      (ih hW (fun c hc => hl c (List.mem_cons_of_mem _ hc)) (hf.mono Finset.subset_union_right)
        fun c hc => hp c (List.mem_cons_of_mem _ hc)) hd
    · rw [Bullet.program, hpat]
      exact hf.mono Finset.subset_union_left
    · intro hg hn
      obtain ⟨p, he, _⟩ := hb hg
      rw [hpat, he] at hn
      cases hn
    · intro hg p he
      obtain ⟨q, hq, hQ⟩ := hb hg
      rw [hpat, hq] at he
      cases he
      exact hQ

end Owned

theorem Tended.perm (h : a.Tended g Q bs X) (hp : bs.Perm cs) : a.Tended g Q cs X :=
  ⟨h.owned.perm hp, h.only, h.count⟩

/-- Some bullets make room for others, and their tasks for the tasks of those. -/
theorem Tended.replace (old new : List Bullet) (a' : Arena) (h : a.Tended g Q (old ++ rest) Z)
    (hr : ∀ X, a.Owned g Q old X → ∃ Y, a.Replaces a' X Y ∧ a'.Owned g Q new Y ∧
      (a'.NoWrap ∨ Y = ∅)) : ∃ Z', a'.Tended g Q (new ++ rest) Z' := by
  obtain ⟨X, W, hX, hW, hd, rfl⟩ := h.owned.of_append
  obtain ⟨Y, hrep, hY, hw⟩ := hr X hX
  have hlive : ∀ k ∈ W, a.contains k = true := fun k => hW.contains
  have hframe := hrep.frame hlive hd
  refine ⟨Y ∪ W, hY.append (hW.carry hrep hd hw) (hrep.disjoint hlive hd), ?_, ?_⟩
  · intro k hk
    exact (hframe.only k hk).resolve_right fun ⟨hc, hn⟩ => hn (h.only k hc)
  · have hn := hframe.count
    have hc := h.count
    omega

end Arena
end Barrage

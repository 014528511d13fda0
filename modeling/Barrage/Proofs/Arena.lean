import Barrage.Proofs.Store
import Barrage.Task.Arena
import Mathlib.Data.Finset.Card

namespace Barrage.Arena

variable {a a' a'' : Arena} {id k : TaskId} {task : Task} {f : Task → Task}

def NoWrap (a : Arena) : Prop := a.store.NoWrap

instance (a : Arena) : Decidable a.NoWrap := inferInstanceAs (Decidable a.store.NoWrap)

def IsDead (a : Arena) (id : TaskId) : Prop := a.store.IsDead id

def Grows (a a' : Arena) : Prop := a.store.Grows a'.store

/-- The slots are in order, and the tasks in them are counted right. -/
structure Sound (a : Arena) : Prop where
  store : a.store.Sound
  count : a.live = a.store.occupied

theorem sound_empty : empty.Sound := ⟨Store.sound_empty, Store.occupied_empty.symm⟩

theorem Grows.refl (a : Arena) : a.Grows a := Store.Grows.refl _

theorem Grows.trans (h₁ : a.Grows a') (h₂ : a'.Grows a'') : a.Grows a'' := Store.Grows.trans h₁ h₂

theorem Grows.noWrap (hg : a.Grows a') (hw : a'.NoWrap) : a.NoWrap := Store.Grows.noWrap hg hw

theorem IsDead.grows (hd : a.IsDead id) (hg : a.Grows a') : a'.IsDead id := Store.IsDead.grows hd hg

theorem IsDead.get? (hd : a.IsDead id) (hw : a.NoWrap) : a.get? id = none := Store.IsDead.get? hd hw

theorem contains_iff : a.contains id = true ↔ ∃ task, a.get? id = some task :=
  Option.isSome_iff_exists

theorem contains_of_get? (h : a.get? id = some task) : a.contains id = true :=
  contains_iff.2 ⟨task, h⟩

theorem get?_eq_none (h : ¬a.contains id = true) : a.get? id = none := by
  simpa [contains] using h

@[simp] theorem get?_empty : empty.get? id = none := Store.get?_empty

theorem get?_modify :
    (a.modify id f).get? k = if k = id then (a.get? id).map f else a.get? k := Store.get?_modify

theorem contains_modify : (a.modify id f).contains k = a.contains k := by
  rw [contains, get?_modify]
  split
  · rename_i h
    simp [contains, h]
  · rfl

theorem grows_modify : a.Grows (a.modify id f) := Store.grows_modify

theorem Sound.modify (hs : a.Sound) : (a.modify id f).Sound :=
  ⟨hs.store.modify, hs.count.trans Store.occupied_modify.symm⟩

theorem Sound.get?_insert (hs : a.Sound) :
    (a.insert task).2.get? k = if k = (a.insert task).1 then some task else a.get? k :=
  (hs.store.inserts fun _ => task).get?

theorem Sound.get?_insert_fst (hs : a.Sound) : a.get? (a.insert task).1 = none :=
  (hs.store.inserts fun _ => task).vacant _ rfl

theorem Sound.insert (hs : a.Sound) : (a.insert task).2.Sound :=
  ⟨(hs.store.inserts fun _ => task).sound,
    (congrArg (· + 1) hs.count).trans (hs.store.occupied_insert fun _ => task).symm⟩

theorem Sound.grows_insert (hs : a.Sound) : a.Grows (a.insert task).2 :=
  (hs.store.inserts fun _ => task).grows

theorem get?_remove : (a.remove id).get? k = if k = id then none else a.get? k := by
  unfold remove
  split
  · exact Store.get?_release
  · rename_i h
    split
    · rename_i hk
      rw [hk, get?_eq_none h]
    · rfl

theorem grows_remove : a.Grows (a.remove id) := by
  unfold remove
  split
  · exact Store.grows_release
  · exact .refl a

theorem isDead_remove (h : a.contains id = true) : (a.remove id).IsDead id := by
  obtain ⟨task, ht⟩ := contains_iff.1 h
  simpa [IsDead, remove, h] using Store.isDead_release (Store.isCurrent_of_get? ht)

theorem Sound.remove (hs : a.Sound) (h : a.contains id = true) :
    (a.remove id).Sound ∧ (a.remove id).live + 1 = a.live := by
  obtain ⟨task, ht⟩ := contains_iff.1 h
  have hc : (a.store.release id).occupied + 1 = a.store.occupied := Store.occupied_release ht
  have hn := hs.count
  simp only [Arena.remove, h, if_true]
  refine ⟨⟨hs.store.release (hs.store.index_notMem_free ht), ?_⟩, ?_⟩
  · simp only
    omega
  · omega

theorem grows_releaseFrom (rounds : Nat) (stack : List TaskId) (a : Arena) :
    a.Grows (releaseFrom rounds stack a).2 := by
  induction rounds generalizing stack a with
  | zero => exact .refl a
  | succ rounds ih =>
    unfold releaseFrom
    split
    · exact .refl a
    · exact grows_remove.trans (ih _ _)

theorem grows_release : a.Grows (a.release id).2 := grows_releaseFrom _ _ _

theorem grows_releaseAll (a : Arena) (ids : List TaskId) : a.Grows (a.releaseAll ids) := by
  induction ids generalizing a with
  | nil => exact .refl a
  | cons id ids ih => exact grows_release.trans (ih _)

/-- `a'` holds the tasks of `Y` where `a` holds those of `X`, and all others unchanged. The handles
that are given up can never be given out again. -/
structure Replaces (a a' : Arena) (X Y : Finset TaskId) : Prop where
  kept : ∀ id, a.contains id = true → id ∉ X → a'.get? id = a.get? id
  fresh : ∀ id ∈ Y, id ∈ X ∨ a.get? id = none
  only : ∀ id, a'.contains id = true → id ∈ Y ∨ a.contains id = true ∧ id ∉ X
  dead : ∀ id ∈ X, id ∉ Y → a'.IsDead id
  count : a'.live + X.card = a.live + Y.card
  grows : a.Grows a'
  sound : a'.Sound

namespace Replaces

variable {X Y Z : Finset TaskId}

theorem refl (hs : a.Sound) (X : Finset TaskId) : a.Replaces a X X where
  kept _ _ _ := rfl
  fresh _ h := .inl h
  only id h := by
    by_cases hx : id ∈ X
    · exact .inl hx
    · exact .inr ⟨h, hx⟩
  dead _ h h' := absurd h h'
  count := rfl
  grows := .refl a
  sound := hs

theorem keeps (h : a.Replaces a' X Y) (hc : a.contains id = true) (hx : id ∉ X) :
    a'.contains id = true := by
  rw [contains, h.kept id hc hx]
  exact hc

theorem trans (h₁ : a.Replaces a' X Y) (h₂ : a'.Replaces a'' Y Z) : a.Replaces a'' X Z where
  kept id hc hx := by
    have hy : id ∉ Y := by
      intro hy
      rcases h₁.fresh id hy with h | h
      · exact hx h
      · simp [contains, h] at hc
    rw [h₂.kept id (h₁.keeps hc hx) hy, h₁.kept id hc hx]
  fresh id hz := by
    rcases h₂.fresh id hz with h | h
    · exact h₁.fresh id h
    · by_cases hx : id ∈ X
      · exact .inl hx
      · refine .inr (get?_eq_none fun hc => ?_)
        have := h₁.keeps hc hx
        simp [contains, h] at this
  only id hc := by
    rcases h₂.only id hc with h | ⟨h, hy⟩
    · exact .inl h
    · exact .inr ((h₁.only id h).resolve_left hy)
  dead id hx hz := by
    by_cases hy : id ∈ Y
    · exact h₂.dead id hy hz
    · exact (h₁.dead id hx hy).grows h₂.grows
  count := by
    have := h₁.count
    have := h₂.count
    omega
  grows := h₁.grows.trans h₂.grows
  sound := h₂.sound

theorem disjoint (h : a.Replaces a' X Y) (hz : ∀ id ∈ Z, a.contains id = true)
    (hd : Disjoint X Z) : Disjoint Y Z := by
  rw [Finset.disjoint_left] at hd ⊢
  intro id hy hzid
  rcases h.fresh id hy with hx | hn
  · exact hd hx hzid
  · have := hz id hzid
    simp [contains, hn] at this

theorem notMem (h : a.Replaces a' X Y) (hl : a.contains id = true) (hx : id ∉ X) : id ∉ Y := by
  intro hy
  rcases h.fresh id hy with hm | hn
  · exact hx hm
  · simp [contains, hn] at hl

theorem frame (h : a.Replaces a' X Y) (hz : ∀ id ∈ Z, a.contains id = true)
    (hd : Disjoint X Z) : a.Replaces a' (X ∪ Z) (Y ∪ Z) where
  kept id hc hx := h.kept id hc fun hm => hx (Finset.mem_union_left _ hm)
  fresh id hm := by
    rcases Finset.mem_union.1 hm with hy | hzid
    · exact (h.fresh id hy).imp_left (Finset.mem_union_left _)
    · exact .inl (Finset.mem_union_right _ hzid)
  only id hc := by
    by_cases hzid : id ∈ Z
    · exact .inl (Finset.mem_union_right _ hzid)
    · refine (h.only id hc).imp (Finset.mem_union_left _) fun ⟨hc', hx⟩ => ⟨hc', ?_⟩
      exact fun hm => (Finset.mem_union.1 hm).elim hx hzid
  dead id hm hn := by
    have hn' := not_or.1 (mt Finset.mem_union.2 hn)
    exact h.dead id ((Finset.mem_union.1 hm).resolve_right hn'.2) hn'.1
  count := by
    rw [Finset.card_union_of_disjoint hd, Finset.card_union_of_disjoint (h.disjoint hz hd)]
    have := h.count
    omega
  grows := h.grows
  sound := h.sound

end Replaces

theorem Sound.replaces_modify (hs : a.Sound) {X : Finset TaskId} (hx : id ∈ X) :
    a.Replaces (a.modify id f) X X where
  kept k _ hk := by
    have hne : k ≠ id := fun h => hk (h ▸ hx)
    rw [get?_modify, if_neg hne]
  fresh _ h := .inl h
  only k hc := by
    rw [contains_modify] at hc
    by_cases hk : k ∈ X
    · exact .inl hk
    · exact .inr ⟨hc, hk⟩
  dead _ h h' := absurd h h'
  count := rfl
  grows := grows_modify
  sound := hs.modify

theorem Sound.replaces_insert (hs : a.Sound) :
    a.Replaces (a.insert task).2 ∅ {(a.insert task).1} where
  kept k hc _ := by
    rw [hs.get?_insert, if_neg]
    intro h
    rw [h, contains, hs.get?_insert_fst] at hc
    cases hc
  fresh k hk := by
    rw [Finset.mem_singleton.1 hk]
    exact .inr hs.get?_insert_fst
  only k hc := by
    rw [contains, hs.get?_insert] at hc
    split at hc
    · rename_i h
      exact .inl (Finset.mem_singleton.2 h)
    · exact .inr ⟨hc, Finset.notMem_empty _⟩
  dead _ h := absurd h (Finset.notMem_empty _)
  count := by simp [Arena.insert]
  grows := hs.grows_insert
  sound := hs.insert

theorem Sound.replaces_remove (hs : a.Sound) (h : a.contains id = true) :
    a.Replaces (a.remove id) {id} ∅ where
  kept k _ hk := by rw [get?_remove, if_neg fun he => hk (Finset.mem_singleton.2 he)]
  fresh _ h := absurd h (Finset.notMem_empty _)
  only k hc := by
    rw [contains, get?_remove] at hc
    split at hc
    · cases hc
    · rename_i hk
      exact .inr ⟨hc, fun hm => hk (Finset.mem_singleton.1 hm)⟩
  dead k hk _ := by
    rw [Finset.mem_singleton.1 hk]
    exact isDead_remove h
  count := by simpa using (hs.remove h).2
  grows := grows_remove
  sound := (hs.remove h).1

end Barrage.Arena

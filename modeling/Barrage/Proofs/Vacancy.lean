import Barrage.Proofs.PoolHistory

namespace Barrage

namespace Store

variable {kind : HandleKind} {α : Type} {s s' : Store kind α} {h k : Handle kind}

/-- Every empty slot can be given out. -/
def Spares (s : Store kind α) : Prop := ∀ i n, s.slots[i]? = some ⟨n, none⟩ → i ∈ s.free

/-- A value was put in the slot of `h`, over whatever was there. -/
structure Fills (s s' : Store kind α) (h : Handle kind) : Prop where
  filled : ∃ a, s'.slot? h = some ⟨s.releases h.index, some a⟩
  others : ∀ i, i ≠ h.index → s'.slots[i]? = s.slots[i]?
  size : s.slots.size ≤ s'.slots.size
  free : s'.free ⊆ s.free ∧ s.free ⊆ h.index :: s'.free

section Insert

theorem InRange.fills (hr : s.InRange) (make : Handle kind → α) :
    s.Fills (s.insert make).2 (s.insert make).1 := by
  cases hf : s.free with
  | nil =>
    simp only [Store.insert, hf]
    refine ⟨⟨make ⟨s.slots.size, 0⟩, ?_⟩, ?_, by simp, by simp, by simp [hf]⟩
    · rw [slot?_eq_some]
      simp [releases, Slot.generation]
    · intro i hi
      rw [Array.getElem?_push, if_neg hi]
  | cons i free =>
    obtain ⟨slot, hs⟩ : ∃ slot, s.slots[i]? = some slot :=
      ⟨_, Array.getElem?_eq_getElem (hr i (hf ▸ List.mem_cons_self))⟩
    simp only [Store.insert, hf, hs, Option.map_some, Option.getD_some]
    refine ⟨⟨make ⟨i, slot.generation⟩, ?_⟩, ?_, by simp, by simp [hf], by simp [hf]⟩
    · rw [slot?_eq_some]
      simp [releases, hs, Slot.generation, Array.getElem?_modify]
    · intro j hj
      rw [Array.getElem?_modify, if_neg hj.symm]

theorem Fills.inRange (hf : s.Fills s' h) (hr : s.InRange) : s'.InRange :=
  fun i hi => Nat.lt_of_lt_of_le (hr i (hf.free.1 hi)) hf.size

theorem Fills.spares (hf : s.Fills s' h) (hs : s.Spares) : s'.Spares := by
  intro i n hn
  by_cases hi : i = h.index
  · obtain ⟨a, ha⟩ := hf.filled
    rw [hi, (slot?_eq_some.1 ha).1] at hn
    cases hn
  · rw [hf.others i hi] at hn
    exact (List.mem_cons.1 (hf.free.2 (hs i n hn))).resolve_left hi

/-- What was reached by a handle before still is something, though it may be overwritten. -/
theorem Fills.contains (hf : s.Fills s' h) (hk : s.contains k = true) : s'.contains k = true := by
  obtain ⟨b, hb⟩ := Option.isSome_iff_exists.1 hk
  obtain ⟨n, hn⟩ := get?_eq_some.1 hb
  by_cases hi : k.index = h.index
  · obtain ⟨a, ha⟩ := hf.filled
    have hnow := (slot?_eq_some.1 ha).1
    rw [← hi, releases_of_slot? hn] at hnow
    have hslot : s'.slot? k = some ⟨n, some a⟩ :=
      slot?_eq_some.2 ⟨hnow, (slot?_eq_some.1 hn).2⟩
    exact Option.isSome_iff_exists.2 ⟨a, get?_eq_some.2 ⟨n, hslot⟩⟩
  · have hslot : s'.slot? k = s.slot? k := by rw [slot?, hf.others k.index hi, slot?]
    rw [Store.contains, Store.get?, hslot]
    exact hk

theorem Fills.contains_self (hf : s.Fills s' h) : s'.contains h = true := by
  obtain ⟨a, ha⟩ := hf.filled
  exact Option.isSome_iff_exists.2 ⟨a, get?_eq_some.2 ⟨_, ha⟩⟩

end Insert

theorem Spares.release (hs : s.Spares) (h : Handle kind) : (s.release h).Spares := by
  cases hc : s.isCurrent h with
  | false =>
    rw [release_of_not_current hc]
    exact hs
  | true =>
    intro i n hn
    rw [free_release hc]
    rw [slots_release] at hn
    by_cases hi : h.index = i
    · exact hi ▸ List.mem_cons_self
    · rw [if_neg fun hand => hi hand.2] at hn
      exact List.mem_cons_of_mem _ (hs i n hn)

theorem InRange.release (hr : s.InRange) (h : Handle kind) : (s.release h).InRange := by
  cases hc : s.isCurrent h with
  | false =>
    rw [release_of_not_current hc]
    exact hr
  | true =>
    intro i hi
    rw [free_release hc] at hi
    rw [size_release]
    rcases List.mem_cons.1 hi with rfl | hi
    · obtain ⟨slot, hslot⟩ := exists_slot? hc
      exact (Array.getElem?_eq_some_iff.1 (slot?_eq_some.1 hslot).1).1
    · exact hr i hi

end Store

namespace Pool

variable {p p' : Pool} {id k : BulletId} {misses : List BulletId}

/-- The handle fits the slot of its index, but no bullet is there. -/
def Vacant (p : Pool) (id : BulletId) : Prop := p.store.isCurrent id = true ∧ p.get? id = none

instance : Decidable (p.Vacant id) :=
  inferInstanceAs (Decidable (p.store.isCurrent id = true ∧ p.get? id = none))

/-- The pools that arise by creating bullets and by removing them, whatever handles are presented.
Those that fitted an empty slot are listed. -/
inductive Serves : List BulletId → Pool → Prop where
  | ofCapacity (capacity : Nat) : Serves [] (.ofCapacity capacity)
  | create {misses : List BulletId} {p : Pool} (h : Serves misses p) : Serves misses p.create.2
  | remove {misses : List BulletId} {p : Pool} (h : Serves misses p) (id : BulletId) :
      Serves (if p.Vacant id then misses ++ [id] else misses) (p.remove id).2

/-- Every listed bullet is in its place, and every empty slot can be given out. -/
structure Tidy (p : Pool) : Prop where
  seated : ∀ id ∈ p.ids, p.store.contains id = true
  inRange : p.store.InRange
  spares : p.store.Spares

section Tidy

theorem tidy_ofCapacity (capacity : Nat) : (ofCapacity capacity).Tidy where
  seated := by simp [ofCapacity, ids]
  inRange := by simp [Store.InRange, ofCapacity, Store.empty]
  spares := by simp [Store.Spares, ofCapacity, Store.empty]

theorem Tidy.create (h : p.Tidy) : p.create.2.Tidy := by
  cases hf : p.isFull with
  | true =>
    simp only [Pool.create, hf, if_true]
    exact h
  | false =>
    have hfills := h.inRange.fills Bullet.atRest
    simp only [Pool.create, hf, Bool.false_eq_true, if_false]
    refine ⟨?_, hfills.inRange h.inRange, hfills.spares h.spares⟩
    intro k hk
    rw [ids, Array.toList_push, List.mem_append, List.mem_singleton] at hk
    rcases hk with hk | rfl
    · exact hfills.contains (h.seated k hk)
    · exact hfills.contains_self

theorem Tidy.remove (h : p.Tidy) (id : BulletId) : (p.remove id).2.Tidy := by
  cases hc : p.store.isCurrent id with
  | false =>
    rw [remove_of_not_current hc]
    exact h
  | true =>
    rw [remove_of_current hc]
    refine ⟨?_, h.inRange.release id, h.spares.release id⟩
    intro k hk
    rw [ids, Array.toList_filter, List.mem_filter] at hk
    have hne : k ≠ id := by simpa using hk.2
    rw [Store.contains, Store.get?_release, if_neg hne]
    exact h.seated k hk.1

theorem Serves.tidy (h : Serves misses p) : p.Tidy := by
  induction h with
  | ofCapacity capacity => exact tidy_ofCapacity capacity
  | create _ ih => exact ih.create
  | remove _ id ih => exact ih.remove id

end Tidy

/-- As long as no handle has fitted an empty slot, no slot is given out twice. -/
theorem Serves.sound (h : Serves misses p) (hm : misses = []) : p.Sound := by
  induction h with
  | ofCapacity capacity => exact sound_ofCapacity capacity
  | @create _ p _ ih =>
    rcases (ih hm).create with ⟨_, he⟩ | ⟨id, p', _, he, hr⟩
    · rw [he]
      exact ih hm
    · rw [he]
      exact hr.sound
  | @remove _ p _ id ih =>
    by_cases hv : p.Vacant id
    · rw [if_pos hv] at hm
      exact absurd hm (by simp)
    · rw [if_neg hv] at hm
      cases hc : p.store.isCurrent id with
      | false =>
        rw [remove_of_not_current hc]
        exact ih hm
      | true =>
        obtain ⟨b, hb⟩ := Option.ne_none_iff_exists'.1 fun hn => hv ⟨hc, hn⟩
        exact (ih hm).remove ((ih hm).listed id b hb).1

/-- A handle that fits an empty slot is that of no bullet, and the slot is free already. -/
theorem Tidy.of_vacant (h : p.Tidy) (hv : p.Vacant id) :
    id ∉ p.ids ∧ id.index ∈ p.store.free := by
  obtain ⟨hc, hn⟩ := hv
  constructor
  · intro hid
    obtain ⟨b, hb⟩ := Option.isSome_iff_exists.1 (h.seated id hid)
    cases hn.symm.trans hb
  · obtain ⟨⟨n, value⟩, hs⟩ := Store.exists_slot? hc
    cases value with
    | none => exact h.spares id.index n (Store.slot?_eq_some.1 hs).1
    | some b =>
      cases hn.symm.trans (Store.get?_eq_some.2 ⟨n, hs⟩)

/-- Nothing is lost of the order, but the slot enters a new generation and can be given out once
more than before. -/
theorem Tidy.remove_of_vacant (h : p.Tidy) (hv : p.Vacant id) :
    p.remove id = (none, { p with store := {
      slots := p.store.slots.modify id.index fun slot => ⟨slot.releases + 1, none⟩
      free := id.index :: p.store.free } }) := by
  have hid := (h.of_vacant hv).1
  have horder : p.order.filter (· != id) = p.order := by
    rw [Array.filter_eq_self]
    intro k hk
    have hne : k ≠ id := fun he => hid (he ▸ Array.mem_toList_iff.2 hk)
    simpa using hne
  rw [remove_of_current hv.1, hv.2, horder, Store.release, if_pos hv.1]

/-- A removal that finds no bullet leaves the pool alone, unless the handle fits an empty slot. The
slot can then be given out twice. As long as this has not happened, a new bullet has a handle and a
slot that no other has. -/
theorem failed_removals_leave_the_pool (h : Serves misses p) :
    (∀ id, (p.remove id).1 = none →
      (¬p.Vacant id ∧ p.remove id = (none, p)) ∨
      (p.Vacant id ∧ id ∉ p.ids ∧ id.index ∈ p.store.free ∧
        p.remove id = (none, { p with store := {
          slots := p.store.slots.modify id.index fun slot => ⟨slot.releases + 1, none⟩
          free := id.index :: p.store.free } }))) ∧
    (misses = [] → ∀ id p', p.create = (some id, p') →
      ∀ k ∈ p.ids, k.index ≠ id.index ∧ p'.store.slot? k = p.store.slot? k) := by
  have ht := h.tidy
  constructor
  · intro id hnone
    by_cases hv : p.Vacant id
    · exact .inr ⟨hv, (ht.of_vacant hv).1, (ht.of_vacant hv).2, ht.remove_of_vacant hv⟩
    · refine .inl ⟨hv, ?_⟩
      cases hc : p.store.isCurrent id with
      | false => exact remove_of_not_current hc
      | true =>
        rw [remove_of_current hc] at hnone
        exact absurd ⟨hc, hnone⟩ hv
  · intro hm id p' hcreate k hk
    have hr := (h.sound hm).reserves_create hcreate
    refine ⟨?_, hr.kept k hk⟩
    have hk' : k ∈ p'.ids := hr.ids ▸ List.mem_append_left _ hk
    exact hr.sound.index_ne hr.mem hk' (hr.ne hk)

/-- Once its only bullet was removed, a pool is left alone by the handle of that bullet, but not by
the one that comes next. -/
theorem vacated_pool_serves :
    ∃ p, p = ((ofCapacity 2).create.2.remove ⟨0, 0⟩).2 ∧ Serves [] p ∧
      p.remove ⟨0, 0⟩ = (none, p) ∧ p.Vacant ⟨0, 1⟩ ∧ 0 ∈ p.store.free ∧
      (p.remove ⟨0, 1⟩).2.store.free = 0 :: p.store.free ∧
      ∀ id p', p.create = (some id, p') → ∀ k ∈ p.ids, k.index ≠ id.index := by
  let p := ((ofCapacity 2).create.2.remove ⟨0, 0⟩).2
  have hlive : ¬(ofCapacity 2).create.2.Vacant ⟨0, 0⟩ := by decide +kernel
  have hp : Serves [] p := by
    have h := Serves.remove (.create (.ofCapacity 2)) ⟨0, 0⟩
    rwa [if_neg hlive] at h
  obtain ⟨hremove, hcreate⟩ := failed_removals_leave_the_pool hp
  have hstale : ¬p.Vacant ⟨0, 0⟩ := by decide +kernel
  have hvacant : p.Vacant ⟨0, 1⟩ := by decide +kernel
  have hnone (id : BulletId) (h : (p.remove id).1.isNone = true) : (p.remove id).1 = none :=
    Option.isNone_iff_eq_none.1 h
  obtain ⟨_, hsame⟩ := (hremove ⟨0, 0⟩ (hnone _ (by decide +kernel))).resolve_right
    fun h => hstale h.1
  obtain ⟨_, _, hfree, hagain⟩ := (hremove ⟨0, 1⟩ (hnone _ (by decide +kernel))).resolve_left
    fun h => h.1 hvacant
  refine ⟨p, rfl, hp, hsame, hvacant, hfree, by rw [hagain], ?_⟩
  exact fun id p' h k hk => (hcreate rfl id p' h k hk).1

/-- To remove the bullet of an empty slot finds nothing, but frees the slot once more. The second
bullet after that gets the handle of the first. -/
theorem vacant_removal_doubles_a_handle :
    (¬∀ misses p id, Serves misses p → (p.remove id).1 = none →
      (p.remove id).2.store.free = p.store.free) ∧
    ¬∀ misses p id p', Serves misses p → p.create = (some id, p') → id ∉ p.ids := by
  let p := ((ofCapacity 2).create.2.remove ⟨0, 0⟩).2
  have hp : Serves _ p := .remove (.create (.ofCapacity 2)) ⟨0, 0⟩
  have hnone : (p.remove ⟨0, 1⟩).1.isNone = true := by decide +kernel
  let q := (p.remove ⟨0, 1⟩).2.create.2
  have hq : Serves _ q := .create (.remove hp ⟨0, 1⟩)
  constructor
  · intro h
    have hfree := h _ p ⟨0, 1⟩ hp (Option.isNone_iff_eq_none.1 hnone)
    revert hfree
    decide +kernel
  · intro h
    have hcreate : q.create = (some ⟨0, 2⟩, q.create.2) := Prod.ext (by decide +kernel) rfl
    exact h _ q ⟨0, 2⟩ q.create.2 hq hcreate (by decide +kernel)

end Pool
end Barrage

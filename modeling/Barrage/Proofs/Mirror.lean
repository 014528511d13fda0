import Barrage.Proofs.Detached

namespace Barrage

/-- Slots of the same generation, which hold related values or none. -/
structure Slot.Mirrors {α β : Type} (R : α → β → Prop) (slot : Slot α) (slot' : Slot β) : Prop where
  releases : slot'.releases = slot.releases
  value : Option.Rel R slot.value slot'.value

theorem Slot.Mirrors.generation {α β : Type} {R : α → β → Prop} {slot : Slot α} {slot' : Slot β}
    (h : slot.Mirrors R slot') : slot'.generation = slot.generation := by
  rw [Slot.generation, Slot.generation, h.releases]

namespace Store

/-- Stores that give out the same handles, and hold related values slot by slot. Nothing is assumed
about what stands in a slot that is free. -/
structure Mirrors {kind : HandleKind} {α β : Type} (R : α → β → Prop) (s : Store kind α)
    (s' : Store kind β) : Prop where
  slots : ∀ i : Nat, Option.Rel (Slot.Mirrors R) s.slots[i]? s'.slots[i]?
  free : s'.free = s.free

namespace Mirrors

variable {kind : HandleKind} {α β : Type} {R R' : α → β → Prop} {s : Store kind α}
  {s' : Store kind β} {h : Handle kind}

theorem slot? (hm : s.Mirrors R s') (h : Handle kind) :
    Option.Rel (Slot.Mirrors R) (s.slot? h) (s'.slot? h) := by
  unfold Store.slot?
  have hslot := hm.slots h.index
  generalize s.slots[h.index]? = x at hslot ⊢
  generalize s'.slots[h.index]? = y at hslot ⊢
  cases hslot with
  | none => exact .none
  | some hslot =>
    simp only [Option.filter, hslot.generation]
    split
    · exact .some hslot
    · exact .none

theorem isCurrent (hm : s.Mirrors R s') (h : Handle kind) : s'.isCurrent h = s.isCurrent h := by
  unfold Store.isCurrent
  have hslot := hm.slot? h
  generalize s.slot? h = x at hslot ⊢
  generalize s'.slot? h = y at hslot ⊢
  cases hslot <;> rfl

theorem get? (hm : s.Mirrors R s') (h : Handle kind) : Option.Rel R (s.get? h) (s'.get? h) := by
  unfold Store.get?
  have hslot := hm.slot? h
  generalize s.slot? h = x at hslot ⊢
  generalize s'.slot? h = y at hslot ⊢
  cases hslot with
  | none => exact .none
  | some hslot => exact hslot.value

theorem size (hm : s.Mirrors R s') : s'.slots.size = s.slots.size := by
  have hbound (i : Nat) : s'.slots.size ≤ i ↔ s.slots.size ≤ i := by
    rw [← Array.getElem?_eq_none_iff, ← Array.getElem?_eq_none_iff]
    have hslot := hm.slots i
    generalize s.slots[i]? = x at hslot ⊢
    generalize s'.slots[i]? = y at hslot ⊢
    cases hslot with
    | none => exact iff_of_true rfl rfl
    | some => exact iff_of_false nofun nofun
  exact Nat.le_antisymm ((hbound _).2 (Nat.le_refl _)) ((hbound _).1 (Nat.le_refl _))

theorem modifyAt {f : Slot α → Slot α} {g : Slot β → Slot β} (hm : s.Mirrors R s')
    (hf : ∀ slot slot', slot.Mirrors R slot' → (f slot).Mirrors R (g slot')) (i j : Nat) :
    Option.Rel (Slot.Mirrors R) (s.slots.modify i f)[j]? (s'.slots.modify i g)[j]? := by
  rw [Array.getElem?_modify, Array.getElem?_modify]
  have hslot := hm.slots j
  split
  · generalize s.slots[j]? = x at hslot ⊢
    generalize s'.slots[j]? = y at hslot ⊢
    cases hslot with
    | none => exact .none
    | some hslot => exact .some (hf _ _ hslot)
  · exact hslot

theorem modifySlot {f : Slot α → Slot α} {g : Slot β → Slot β} (hm : s.Mirrors R s')
    (hf : ∀ slot slot', slot.Mirrors R slot' → (f slot).Mirrors R (g slot')) (h : Handle kind) :
    (s.modifySlot h f).Mirrors R (s'.modifySlot h g) := by
  unfold Store.modifySlot
  rw [hm.isCurrent h]
  split
  · exact ⟨hm.modifyAt hf h.index, hm.free⟩
  · exact hm

theorem modify {f : α → α} {g : β → β} (hm : s.Mirrors R s') (hf : ∀ a b, R a b → R (f a) (g b))
    (h : Handle kind) : (s.modify h f).Mirrors R (s'.modify h g) := by
  apply hm.modifySlot
  intro slot slot' hslot
  refine ⟨hslot.releases, ?_⟩
  have hvalue := hslot.value
  generalize slot.value = x at hvalue ⊢
  generalize slot'.value = y at hvalue ⊢
  cases hvalue with
  | none => exact .none
  | some hab => exact .some (hf _ _ hab)

theorem put {a : α} {b : β} (hm : s.Mirrors R s') (hab : R a b) (h : Handle kind) :
    (s.put h a).Mirrors R (s'.put h b) := by
  apply hm.modifySlot
  intro slot slot' hslot
  exact ⟨hslot.releases, .some hab⟩

theorem vacate (hm : s.Mirrors R s') (h : Handle kind) :
    (s.vacate h).Mirrors R (s'.vacate h) := by
  apply hm.modifySlot
  intro slot slot' hslot
  exact ⟨hslot.releases, .none⟩

theorem release (hm : s.Mirrors R s') (h : Handle kind) :
    (s.release h).Mirrors R (s'.release h) := by
  unfold Store.release
  rw [hm.isCurrent h, hm.free]
  split
  · exact ⟨hm.modifyAt (fun _ _ hslot => ⟨congrArg (· + 1) hslot.releases, .none⟩) h.index, rfl⟩
  · exact hm

theorem insert {make : Handle kind → α} {make' : Handle kind → β} (hm : s.Mirrors R s')
    (hr : ∀ h, R (make h) (make' h)) : (s'.insert make').1 = (s.insert make).1 ∧
      (s.insert make).2.Mirrors R (s'.insert make').2 := by
  unfold Store.insert
  rw [hm.free, hm.size]
  cases s.free with
  | nil =>
    refine ⟨rfl, fun i => ?_, rfl⟩
    simp only [Array.getElem?_push, hm.size]
    split
    · exact .some ⟨rfl, .some (hr _)⟩
    · exact hm.slots i
  | cons i free =>
    have hgeneration : s'.slots[i]?.map Slot.generation = s.slots[i]?.map Slot.generation := by
      have hslot := hm.slots i
      generalize s.slots[i]? = x at hslot ⊢
      generalize s'.slots[i]? = y at hslot ⊢
      cases hslot with
      | none => rfl
      | some hslot => exact congrArg some hslot.generation
    simp only [hgeneration]
    refine ⟨trivial, hm.modifyAt ?_ i, rfl⟩
    intro slot slot' hslot
    exact ⟨hslot.releases, .some (hr _)⟩

end Mirrors

/-- The values in the slots of a store. -/
def occupants {kind : HandleKind} {α : Type} (s : Store kind α) : List α :=
  s.slots.toList.filterMap Slot.value

section Occupants

variable {kind : HandleKind} {α β : Type} {s : Store kind α} {h : Handle kind} {a : α}

theorem mem_occupants {slot : Slot α} {i : Nat} (hi : s.slots[i]? = some slot)
    (ha : slot.value = some a) : a ∈ s.occupants := by
  refine List.mem_filterMap.2 ⟨slot, ?_, ha⟩
  exact Array.mem_toList_iff.2 (Array.mem_of_getElem? hi)

/-- What is known of the values makes one relation of them into another one. -/
theorem Mirrors.imp {R R' : α → β → Prop} {s' : Store kind β} (hm : s.Mirrors R s')
    (hr : ∀ a ∈ s.occupants, ∀ b ∈ s'.occupants, R a b → R' a b) : s.Mirrors R' s' := by
  refine ⟨fun i => ?_, hm.free⟩
  have hslot := hm.slots i
  generalize hx : s.slots[i]? = x at hslot ⊢
  generalize hy : s'.slots[i]? = y at hslot ⊢
  cases hslot with
  | none => exact .none
  | @some slot slot' hslot =>
    refine .some ⟨hslot.releases, ?_⟩
    have hvalue := hslot.value
    generalize hv : slot.value = v at hvalue ⊢
    generalize hv' : slot'.value = v' at hvalue ⊢
    cases hvalue with
    | none => exact .none
    | some hab => exact .some (hr _ (mem_occupants hx hv) _ (mem_occupants hy hv') hab)

/-- One slot holds its value, and the others hold the rest. -/
theorem exists_rest {slots : List (Slot α)} {i : Nat} {slot : Slot α}
    (hi : slots[i]? = some slot) :
    ∃ rest, (slots.filterMap Slot.value).Perm (slot.value.toList ++ rest) ∧
      ∀ f, ((slots.modify i f).filterMap Slot.value).Perm ((f slot).value.toList ++ rest) := by
  have split (slot : Slot α) (slots : List (Slot α)) :
      (slot :: slots).filterMap Slot.value = slot.value.toList ++ slots.filterMap Slot.value := by
    rw [List.filterMap_cons]
    cases slot.value <;> rfl
  induction slots generalizing i with
  | nil => cases hi
  | cons first slots ih =>
    cases i with
    | zero =>
      cases hi
      refine ⟨slots.filterMap Slot.value, .of_eq (split _ _), fun f => ?_⟩
      rw [List.modify_zero_cons, split]
    | succ i =>
      obtain ⟨rest, hrest, hmodify⟩ := ih hi
      refine ⟨first.value.toList ++ rest, ?_, fun f => ?_⟩
      · rw [split]
        exact (hrest.append_left _).trans (List.perm_append_comm_assoc ..)
      · rw [List.modify_succ_cons, split]
        exact ((hmodify f).append_left _).trans (List.perm_append_comm_assoc ..)

theorem modifySlot_of_none (hs : s.slot? h = none) (f : Slot α → Slot α) :
    s.modifySlot h f = s := by
  have hc : s.isCurrent h = false := by
    rw [isCurrent, hs]
    rfl
  rw [modifySlot, hc]
  rfl

theorem exists_rest_of_slot? {slot : Slot α} (hs : s.slot? h = some slot) :
    ∃ rest, s.occupants.Perm (slot.value.toList ++ rest) ∧
      ∀ f, (s.modifySlot h f).occupants.Perm ((f slot).value.toList ++ rest) := by
  have hi : s.slots.toList[h.index]? = some slot := by simpa using (slot?_eq_some.1 hs).1
  obtain ⟨rest, hrest, hmodify⟩ := exists_rest hi
  refine ⟨rest, hrest, fun f => ?_⟩
  have hc : s.isCurrent h = true := by
    rw [isCurrent, hs]
    rfl
  rw [modifySlot, if_pos hc, occupants, Array.toList_modify]
  exact hmodify f

/-- A value that is taken out of its slot leaves the others. -/
theorem occupants_vacate (ha : s.get? h = some a) :
    s.occupants.Perm (a :: (s.vacate h).occupants) := by
  obtain ⟨n, hs⟩ := get?_eq_some.1 ha
  obtain ⟨rest, hrest, hmodify⟩ := exists_rest_of_slot? hs
  have hvacated : (s.vacate h).occupants.Perm rest := hmodify _
  exact hrest.trans (hvacated.symm.cons a)

theorem occupants_modify (ha : s.get? h = some a) (f : α → α) :
    (s.modify h f).occupants.Perm (f a :: (s.vacate h).occupants) := by
  obtain ⟨n, hs⟩ := get?_eq_some.1 ha
  obtain ⟨rest, _, hmodify⟩ := exists_rest_of_slot? hs
  have hvacated : (s.vacate h).occupants.Perm rest := hmodify _
  have hmodified : (s.modify h f).occupants.Perm (f a :: rest) := hmodify _
  exact hmodified.trans (hvacated.symm.cons (f a))

/-- Where there is no value, none is changed. -/
theorem occupants_of_none (hn : s.get? h = none) {f : Slot α → Slot α}
    (hf : ∀ slot, slot.value = none → (f slot).value = none) :
    (s.modifySlot h f).occupants.Perm s.occupants := by
  cases hs : s.slot? h with
  | none => rw [modifySlot_of_none hs]
  | some slot =>
    obtain ⟨rest, hrest, hmodify⟩ := exists_rest_of_slot? hs
    have hvalue : slot.value = none := by
      rw [get?, hs] at hn
      exact hn
    have hmodified := hmodify f
    rw [hf slot hvalue] at hmodified
    rw [hvalue] at hrest
    exact hmodified.trans hrest.symm

theorem occupants_put (s : Store kind α) (h : Handle kind) (a : α) :
    (s.put h a).occupants.Subperm (a :: s.occupants) := by
  cases hs : s.slot? h with
  | none =>
    rw [put, modifySlot_of_none hs]
    exact (List.sublist_cons_self _ _).subperm
  | some slot =>
    obtain ⟨rest, hrest, hmodify⟩ := exists_rest_of_slot? hs
    have hput : (s.put h a).occupants.Perm (a :: rest) := hmodify _
    have hsub : rest.Subperm s.occupants :=
      (List.sublist_append_right _ _).subperm.trans hrest.symm.subperm
    exact hput.subperm.trans ((List.subperm_cons a).2 hsub)

theorem occupants_release (s : Store kind α) (h : Handle kind) :
    (s.release h).occupants.Perm (s.vacate h).occupants := by
  have hreleased : (s.release h).occupants =
      (s.modifySlot h fun slot => ⟨slot.releases + 1, none⟩).occupants := by
    unfold release modifySlot
    split <;> rfl
  cases hs : s.slot? h with
  | none => rw [hreleased, modifySlot_of_none hs, vacate, modifySlot_of_none hs]
  | some slot =>
    obtain ⟨rest, _, hmodify⟩ := exists_rest_of_slot? hs
    have hvacated : (s.vacate h).occupants.Perm rest := hmodify _
    rw [hreleased]
    exact (hmodify _).trans hvacated.symm

theorem occupants_insert (s : Store kind α) (make : Handle kind → α) :
    (s.insert make).2.occupants.Subperm (make (s.insert make).1 :: s.occupants) := by
  unfold insert
  cases s.free with
  | nil =>
    simp only [occupants, Array.toList_push, List.filterMap_append]
    exact List.perm_append_comm.subperm
  | cons i free =>
    simp only [occupants, Array.toList_modify]
    cases hi : s.slots.toList[i]? with
    | none =>
      rw [List.modify_eq_set_getElem?, hi]
      exact (List.sublist_cons_self _ _).subperm
    | some slot =>
      obtain ⟨rest, hrest, hmodify⟩ := exists_rest hi
      have hsub : rest.Subperm (s.slots.toList.filterMap Slot.value) :=
        (List.sublist_append_right _ _).subperm.trans hrest.symm.subperm
      exact (hmodify _).subperm.trans ((List.subperm_cons _).2 hsub)

end Occupants

end Store

namespace Pool

/-- Pools of the same size and order, with related bullets slot by slot. -/
structure Mirrors (R : Bullet → Bullet → Prop) (p p' : Pool) : Prop where
  store : p.store.Mirrors R p'.store
  order : p'.order = p.order
  capacity : p'.capacity = p.capacity

variable {R R' : Bullet → Bullet → Prop} {p p' : Pool} {b b' : Bullet} {id : BulletId}
  {shots shots' : List Bullet}

/-- The bullets in the slots of a pool. -/
def occupants (p : Pool) : List Bullet := p.store.occupants

namespace Mirrors

theorem imp (h : p.Mirrors R p')
    (hr : ∀ b ∈ p.occupants, ∀ b' ∈ p'.occupants, R b b' → R' b b') : p.Mirrors R' p' :=
  ⟨h.store.imp hr, h.order, h.capacity⟩

theorem get? (h : p.Mirrors R p') (id : BulletId) : Option.Rel R (p.get? id) (p'.get? id) :=
  h.store.get? id

theorem ids (h : p.Mirrors R p') : p'.ids = p.ids := congrArg Array.toList h.order

theorem places (h : p.Mirrors R p') : p'.room.places = p.room.places := by
  simp only [room, size, h.order, h.capacity]

theorem take (h : p.Mirrors R p') (id : BulletId) : (p.take id).2.Mirrors R (p'.take id).2 :=
  ⟨h.store.vacate id, h.order, h.capacity⟩

theorem place (h : p.Mirrors R p') (hr : R b b') (hid : b'.id = b.id) :
    (p.place b).Mirrors R (p'.place b') := by
  refine ⟨?_, h.order, h.capacity⟩
  simp only [Pool.place, hid]
  exact h.store.put hr b.id

theorem modify {f g : Bullet → Bullet} (h : p.Mirrors R p') (hf : ∀ b b', R b b' → R (f b) (g b'))
    (id : BulletId) : (p.modify id f).Mirrors R (p'.modify id g) :=
  ⟨h.store.modify hf id, h.order, h.capacity⟩

theorem remove (h : p.Mirrors R p') (id : BulletId) :
    Option.Rel R (p.remove id).1 (p'.remove id).1 ∧
      (p.remove id).2.Mirrors R (p'.remove id).2 := by
  unfold Pool.remove
  rw [h.store.isCurrent id]
  split
  · exact ⟨h.get? id, h.store.release id, by rw [h.order], h.capacity⟩
  · exact ⟨.none, h⟩

theorem create (h : p.Mirrors R p') (hr : ∀ id, R (.atRest id) (.atRest id)) :
    p'.create.1 = p.create.1 ∧ p.create.2.Mirrors R p'.create.2 := by
  have hfull : p'.isFull = p.isFull := by
    rw [isFull, isFull, h.capacity, size, size, h.order]
  obtain ⟨hid, hstore⟩ := h.store.insert hr
  unfold Pool.create
  rw [hfull]
  split
  · exact ⟨rfl, h⟩
  · simp only [hid, h.order]
    exact ⟨trivial, hstore, rfl, h.capacity⟩

/-- Related bullets are received alike, whatever handles they are given. -/
theorem accept (h : p.Mirrors R p') (hr : ∀ id, R (.atRest id) (.atRest id))
    (hb : ∀ id, R { b with id } { b' with id }) : (p.accept b).Mirrors R (p'.accept b') := by
  obtain ⟨hid, hcreate⟩ := h.create hr
  unfold Pool.accept
  generalize p.create = x at hid hcreate ⊢
  generalize p'.create = y at hid hcreate ⊢
  obtain ⟨_ | id, q⟩ := x
  · obtain ⟨_, q'⟩ := y
    cases hid
    exact hcreate
  · obtain ⟨_, q'⟩ := y
    cases hid
    exact hcreate.place (hb id) rfl

theorem waste (h : p.Mirrors R p') (hr : ∀ id, R (.atRest id) (.atRest id)) :
    p.waste.Mirrors R p'.waste := by
  obtain ⟨hid, hcreate⟩ := h.create hr
  unfold Pool.waste
  generalize p.create = x at hid hcreate ⊢
  generalize p'.create = y at hid hcreate ⊢
  obtain ⟨_ | id, q⟩ := x
  · obtain ⟨_, q'⟩ := y
    cases hid
    exact hcreate
  · obtain ⟨_, q'⟩ := y
    cases hid
    exact (hcreate.remove id).2

theorem receive (h : p.Mirrors R p') (hr : ∀ id, R (.atRest id) (.atRest id))
    (hs : List.Forall₂ (fun b b' => ∀ id, R { b with id } { b' with id }) shots shots')
    (vain : Bool) : (p.receive shots vain).Mirrors R (p'.receive shots' vain) := by
  induction hs generalizing p p' with
  | nil =>
    cases vain with
    | false => exact h
    | true => exact h.waste hr
  | cons hb _ ih => exact ih (h.accept hr hb)

end Mirrors

section Occupants

theorem occupants_take (hb : p.get? id = some b) : p.occupants.Perm (b :: (p.take id).2.occupants) :=
  Store.occupants_vacate hb

theorem occupants_place (p : Pool) (b : Bullet) :
    (p.place b).occupants.Subperm (b :: p.occupants) := Store.occupants_put p.store b.id b

end Occupants

end Pool
end Barrage

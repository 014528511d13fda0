import Barrage.Store
import Mathlib.Algebra.GroupWithZero.Nat
import Mathlib.Data.List.Nodup

namespace Barrage.Store

variable {kind : HandleKind} {α : Type} {s s' s'' : Store kind α} {h k : Handle kind}

/-- How often the slot of an index was freed. -/
def releases (s : Store kind α) (i : Nat) : Nat := (s.slots[i]?.map Slot.releases).getD 0

/-- No slot was freed so often that its generations began anew. -/
def NoWrap (s : Store kind α) : Prop := ∀ i, s.releases i < UInt32.size

/-- The slot of the handle has left the generation in which the handle was given out. -/
def IsDead (s : Store kind α) (h : Handle kind) : Prop := h.generation.toNat < s.releases h.index

/-- Every slot was freed at least as often in `s'` as in `s`. -/
def Grows (s s' : Store kind α) : Prop := ∀ i, s.releases i ≤ s'.releases i

/-- The slots that can be given out are empty, and each is listed once. -/
structure Sound (s : Store kind α) : Prop where
  nodup : s.free.Nodup
  vacant : ∀ i ∈ s.free, ∃ n, s.slots[i]? = some ⟨n, none⟩

/-- The slots that can be given out are there. -/
def InRange (s : Store kind α) : Prop := ∀ i ∈ s.free, i < s.slots.size

/-- How many slots hold a value. -/
def occupied (s : Store kind α) : Nat := s.slots.countP fun slot => slot.value.isSome

theorem noWrap_iff : s.NoWrap ↔ ∀ i < s.slots.size, s.releases i < UInt32.size := by
  refine ⟨fun h i _ => h i, ?_⟩
  intro h i
  by_cases hi : i < s.slots.size
  · exact h i hi
  · rw [releases, Array.getElem?_eq_none (Nat.le_of_not_lt hi)]
    exact (by decide : 0 < UInt32.size)

instance (s : Store kind α) : Decidable s.NoWrap := decidable_of_iff _ noWrap_iff.symm

theorem Grows.refl (s : Store kind α) : s.Grows s := fun _ => Nat.le_refl _

theorem Grows.trans (h₁ : s.Grows s') (h₂ : s'.Grows s'') : s.Grows s'' :=
  fun i => Nat.le_trans (h₁ i) (h₂ i)

theorem Grows.noWrap (hg : s.Grows s') (hw : s'.NoWrap) : s.NoWrap :=
  fun i => Nat.lt_of_le_of_lt (hg i) (hw i)

theorem IsDead.grows (hd : s.IsDead h) (hg : s.Grows s') : s'.IsDead h :=
  Nat.lt_of_lt_of_le hd (hg _)

theorem slot?_eq_some {slot : Slot α} :
    s.slot? h = some slot ↔
      s.slots[h.index]? = some slot ∧ slot.generation = h.generation := by
  simp [slot?, Option.filter_eq_some_iff]

theorem get?_eq_some {a : α} :
    s.get? h = some a ↔ ∃ n, s.slot? h = some ⟨n, some a⟩ := by
  constructor
  · intro hg
    obtain ⟨⟨n, v⟩, hs, hv⟩ := Option.bind_eq_some_iff.1 hg
    exact ⟨n, by rw [hs]; congr⟩
  · rintro ⟨n, hs⟩
    simp [get?, hs]

theorem isCurrent_of_get? {a : α} (hg : s.get? h = some a) : s.isCurrent h = true := by
  obtain ⟨n, hs⟩ := get?_eq_some.1 hg
  simp [isCurrent, hs]

theorem exists_slot? (hc : s.isCurrent h = true) : ∃ slot, s.slot? h = some slot :=
  Option.isSome_iff_exists.1 hc

theorem eq_of_slot? {a b : Slot α} (ha : s.slot? h = some a) (hb : s.slot? k = some b)
    (hi : h.index = k.index) : h = k := by
  rw [slot?_eq_some] at ha hb
  have hs : a = b := by
    rw [← hi, ha.1] at hb
    exact Option.some.inj hb.1
  cases h
  cases k
  simp_all

theorem releases_of_slot? {slot : Slot α} (hs : s.slot? h = some slot) :
    s.releases h.index = slot.releases := by
  simp [releases, (slot?_eq_some.1 hs).1]

theorem IsDead.slot? (hd : s.IsDead h) (hw : s.NoWrap) : s.slot? h = none := by
  cases hs : s.slot? h with
  | none => rfl
  | some slot =>
    have hr := releases_of_slot? hs
    have hg := (slot?_eq_some.1 hs).2
    have hlt := hw h.index
    have : h.generation.toNat = slot.releases := by
      rw [← hg, Slot.generation, UInt32.toNat_ofNat_of_lt' (hr ▸ hlt)]
    rw [IsDead, hr] at hd
    omega

theorem IsDead.get? (hd : s.IsDead h) (hw : s.NoWrap) : s.get? h = none := by
  simp [Store.get?, hd.slot? hw]

theorem Sound.inRange (hs : s.Sound) : s.InRange := by
  intro i hi
  obtain ⟨_, hn⟩ := hs.vacant i hi
  exact (Array.getElem?_eq_some_iff.1 hn).1

theorem Sound.index_notMem_free {a : α} (hs : s.Sound) (hg : s.get? h = some a) :
    h.index ∉ s.free := by
  intro hi
  obtain ⟨n, hn⟩ := hs.vacant _ hi
  obtain ⟨m, hm⟩ := get?_eq_some.1 hg
  rw [slot?_eq_some, hn] at hm
  simp at hm

section Empty

@[simp] theorem get?_empty : (empty : Store kind α).get? h = none := by
  simp [get?, slot?, empty]

theorem sound_empty : (empty : Store kind α).Sound :=
  ⟨List.nodup_nil, by simp [empty]⟩

@[simp] theorem occupied_empty : (empty : Store kind α).occupied = 0 := by
  simp [occupied, empty]

end Empty

section ModifySlot

variable {f : Slot α → Slot α}

theorem slots_modifySlot (s : Store kind α) (h : Handle kind) (f : Slot α → Slot α) (i : Nat) :
    (s.modifySlot h f).slots[i]? =
      if s.isCurrent h = true ∧ h.index = i then s.slots[i]?.map f else s.slots[i]? := by
  unfold modifySlot
  split <;> rename_i hc <;> simp [hc, Array.getElem?_modify]

@[simp] theorem free_modifySlot : (s.modifySlot h f).free = s.free := by
  unfold modifySlot
  split <;> rfl

theorem slot?_modifySlot (hf : ∀ slot, (f slot).releases = slot.releases) :
    (s.modifySlot h f).slot? k = if k = h then (s.slot? h).map f else s.slot? k := by
  have hgen (slot : Slot α) : (f slot).generation = slot.generation := by
    simp [Slot.generation, hf]
  by_cases hkh : k = h
  · subst hkh
    cases hs : s.slot? k with
    | none => simp [modifySlot, isCurrent, hs]
    | some slot =>
      have hs' := slot?_eq_some.1 hs
      simp [slot?_eq_some, slots_modifySlot, isCurrent, hs, hs'.1, hgen, hs'.2]
  · rw [if_neg hkh, slot?, slots_modifySlot]
    split
    · rename_i hc
      obtain ⟨slot, hs⟩ := exists_slot? hc.1
      have hs' := slot?_eq_some.1 hs
      have hne : slot.generation ≠ k.generation := by
        intro he
        apply hkh
        cases h
        cases k
        simp_all
      rw [slot?, ← hc.2, hs'.1]
      simp [Option.filter, hgen, hne]
    · rfl

theorem releases_modifySlot (hf : ∀ slot, (f slot).releases = slot.releases) (i : Nat) :
    (s.modifySlot h f).releases i = s.releases i := by
  rw [releases, releases, slots_modifySlot]
  split
  · cases s.slots[i]? with
    | none => rfl
    | some slot => simp [hf]
  · rfl

theorem grows_modifySlot (hf : ∀ slot, (f slot).releases = slot.releases) :
    s.Grows (s.modifySlot h f) :=
  fun i => Nat.le_of_eq (releases_modifySlot hf i).symm

/-- A slot that is free must stay empty. -/
theorem Sound.modifySlot (hs : s.Sound) (hr : ∀ slot, (f slot).releases = slot.releases)
    (hv : h.index ∈ s.free → ∀ slot, slot.value = none → (f slot).value = none) :
    (s.modifySlot h f).Sound := by
  refine ⟨by rw [free_modifySlot]; exact hs.nodup, ?_⟩
  intro i hi
  rw [free_modifySlot] at hi
  obtain ⟨n, hn⟩ := hs.vacant i hi
  rw [slots_modifySlot]
  split
  · rename_i hc
    refine ⟨n, ?_⟩
    rw [hn]
    have hv' := hv (hc.2 ▸ hi) ⟨n, none⟩ rfl
    have hr' := hr ⟨n, none⟩
    cases hfn : f ⟨n, none⟩
    simp_all
  · exact ⟨n, hn⟩

end ModifySlot

section Modify

variable {f : α → α} {a : α}

theorem get?_modify : (s.modify h f).get? k = if k = h then (s.get? h).map f else s.get? k := by
  have hs : (s.modify h f).slot? k = _ := slot?_modifySlot fun _ => rfl
  rw [get?, get?, hs]
  split
  · cases s.slot? h <;> rfl
  · rfl

theorem grows_modify : s.Grows (s.modify h f) := grows_modifySlot fun _ => rfl

theorem Sound.modify (hs : s.Sound) : (s.modify h f).Sound :=
  hs.modifySlot (fun _ => rfl) fun _ slot hv => by simp [hv]

theorem slot?_put :
    (s.put h a).slot? k =
      if k = h then (s.slot? h).map fun slot => { slot with value := some a } else s.slot? k :=
  slot?_modifySlot fun _ => rfl

theorem get?_put (hc : s.isCurrent h = true) :
    (s.put h a).get? k = if k = h then some a else s.get? k := by
  obtain ⟨slot, hs⟩ := exists_slot? hc
  rw [get?, slot?_put]
  split
  · simp [hs]
  · rfl

theorem grows_put : s.Grows (s.put h a) := grows_modifySlot fun _ => rfl

theorem Sound.put (hs : s.Sound) (hi : h.index ∉ s.free) : (s.put h a).Sound :=
  hs.modifySlot (fun _ => rfl) fun hi' => absurd hi' hi

theorem slot?_vacate :
    (s.vacate h).slot? k =
      if k = h then (s.slot? h).map fun slot => { slot with value := none } else s.slot? k :=
  slot?_modifySlot fun _ => rfl

theorem get?_vacate : (s.vacate h).get? k = if k = h then none else s.get? k := by
  rw [get?, slot?_vacate]
  split
  · cases s.slot? h <;> simp
  · rfl

theorem grows_vacate : s.Grows (s.vacate h) := grows_modifySlot fun _ => rfl

theorem Sound.vacate (hs : s.Sound) : (s.vacate h).Sound :=
  hs.modifySlot (fun _ => rfl) fun _ _ _ => rfl

end Modify

section Release

theorem slots_release (s : Store kind α) (h : Handle kind) (i : Nat) :
    (s.release h).slots[i]? =
      if s.isCurrent h = true ∧ h.index = i then
        s.slots[i]?.map fun slot => ⟨slot.releases + 1, none⟩
      else s.slots[i]? := by
  unfold release
  split <;> rename_i hc <;> simp [hc, Array.getElem?_modify]

theorem free_release (hc : s.isCurrent h = true) : (s.release h).free = h.index :: s.free := by
  simp [release, hc]

theorem release_of_not_current (hc : s.isCurrent h = false) : s.release h = s := by
  simp [release, hc]

theorem slot?_release_of_ne (hi : k.index ≠ h.index) : (s.release h).slot? k = s.slot? k := by
  rw [slot?, slots_release, if_neg fun hc => hi hc.2.symm]
  rfl

theorem get?_release : (s.release h).get? k = if k = h then none else s.get? k := by
  by_cases hi : k.index = h.index
  · cases hc : s.isCurrent h with
    | false =>
      rw [release_of_not_current hc]
      split
      · rename_i hk
        subst hk
        simp_all [isCurrent, get?]
      · rfl
    | true =>
      obtain ⟨slot, hs⟩ := exists_slot? hc
      have hvacant : (s.release h).get? k = none := by
        have hs' := (slot?_eq_some.1 hs).1
        rw [get?, slot?, slots_release, if_pos ⟨hc, hi.symm⟩, hi, hs']
        simp only [Option.map_some, Option.filter]
        split <;> rfl
      rw [hvacant]
      split
      · rfl
      · rename_i hk
        cases hg : s.get? k with
        | none => rfl
        | some a =>
          obtain ⟨n, hn⟩ := get?_eq_some.1 hg
          exact absurd (eq_of_slot? hn hs hi) hk
  · rw [get?, slot?_release_of_ne hi, if_neg fun hk => hi (congrArg Handle.index hk)]
    rfl

theorem grows_release : s.Grows (s.release h) := by
  intro i
  rw [releases, releases, slots_release]
  split
  · cases s.slots[i]? <;> simp
  · exact Nat.le_refl _

theorem isDead_release (hc : s.isCurrent h = true) : (s.release h).IsDead h := by
  obtain ⟨slot, hs⟩ := exists_slot? hc
  have hs' := slot?_eq_some.1 hs
  have hle : slot.generation.toNat ≤ slot.releases := by
    simp [Slot.generation, Nat.mod_le]
  simp only [IsDead, releases, slots_release, hc, hs'.1, ← hs'.2]
  simpa using Nat.lt_succ_of_le hle

theorem Sound.release (hs : s.Sound) (hi : h.index ∉ s.free) : (s.release h).Sound := by
  cases hc : s.isCurrent h with
  | false => rwa [release_of_not_current hc]
  | true =>
    refine ⟨by rw [free_release hc]; exact List.nodup_cons.2 ⟨hi, hs.nodup⟩, ?_⟩
    intro i hm
    rw [free_release hc] at hm
    rw [slots_release]
    obtain ⟨slot, hsl⟩ := exists_slot? hc
    by_cases he : h.index = i
    · rw [if_pos ⟨hc, he⟩, ← he, (slot?_eq_some.1 hsl).1]
      exact ⟨_, rfl⟩
    · rw [if_neg fun hn => he hn.2]
      exact hs.vacant i ((List.mem_cons.1 hm).resolve_left fun hn => he hn.symm)

end Release

section Insert

variable {a : α}

/-- `s'` is `s` with a value behind a new handle, in a slot that no handle had a claim to. -/
structure Inserts (s s' : Store kind α) (h : Handle kind) (a : α) : Prop where
  slot : ∃ n, s'.slot? h = some ⟨n, some a⟩
  others : ∀ k, k.index ≠ h.index → s'.slot? k = s.slot? k
  vacant : ∀ k, k.index = h.index → s.get? k = none
  unclaimed : ∀ k, s.isCurrent k = true → k.index ∉ s.free → k.index ≠ h.index
  reserved : h.index ∉ s'.free
  free : ∀ i ∈ s'.free, i ∈ s.free
  grows : s.Grows s'
  sound : s'.Sound

theorem Inserts.get? (hi : s.Inserts s' h a) :
    s'.get? k = if k = h then some a else s.get? k := by
  obtain ⟨n, hn⟩ := hi.slot
  by_cases hx : k.index = h.index
  · split
    · rename_i hk
      rw [hk, get?_eq_some]
      exact ⟨n, hn⟩
    · rename_i hk
      rw [hi.vacant k hx]
      cases hg : s'.get? k with
      | none => rfl
      | some a =>
        obtain ⟨m, hm⟩ := get?_eq_some.1 hg
        exact absurd (eq_of_slot? hm hn hx) hk
  · rw [Store.get?, hi.others k hx, if_neg fun hk => hx (congrArg Handle.index hk)]
    rfl

theorem Sound.inserts_vacant (hs : s.Sound) {i n : Nat} {free : List Nat} (hf : s.free = i :: free)
    (hn : s.slots[i]? = some ⟨n, none⟩) :
    s.Inserts ⟨s.slots.modify i fun slot => { slot with value := some a }, free⟩
      ⟨i, .ofNat n⟩ a := by
  have hnd := List.nodup_cons.1 (hf ▸ hs.nodup)
  have hslots (j : Nat) (hj : j ≠ i) :
      (s.slots.modify i fun slot => { slot with value := some a })[j]? = s.slots[j]? := by
    rw [Array.getElem?_modify, if_neg hj.symm]
  constructor
  · exact ⟨n, slot?_eq_some.2 (by simp [Array.getElem?_modify, hn, Slot.generation])⟩
  · intro k hk
    rw [slot?, hslots _ hk]
    rfl
  · intro k hk
    simp only at hk
    rw [get?, slot?, hk, hn]
    simp only [Option.filter]
    split <;> rfl
  · intro k _ hk he
    exact hk (by rw [hf, he]; exact List.mem_cons_self)
  · exact hnd.1
  · intro j hj
    rw [hf]
    exact List.mem_cons_of_mem _ hj
  · intro j
    by_cases hj : j = i
    · simp [releases, hj, Array.getElem?_modify, hn]
    · apply Nat.le_of_eq
      rw [releases, releases, hslots j hj]
  · refine ⟨hnd.2, ?_⟩
    intro j hj
    have hne : j ≠ i := fun he => hnd.1 (he ▸ hj)
    rw [hslots j hne]
    exact hs.vacant j (by rw [hf]; exact List.mem_cons_of_mem _ hj)

theorem inserts_new :
    s.Inserts ⟨s.slots.push ⟨0, some a⟩, []⟩ ⟨s.slots.size, 0⟩ a := by
  constructor
  · exact ⟨0, slot?_eq_some.2 (by simp [Slot.generation])⟩
  · intro k hk
    rw [slot?, Array.getElem?_push, if_neg hk]
    rfl
  · intro k hk
    simp only at hk
    simp [get?, slot?, hk]
  · intro k hc _
    obtain ⟨slot, hs⟩ := exists_slot? hc
    have := (Array.getElem?_eq_some_iff.1 (slot?_eq_some.1 hs).1).1
    exact Nat.ne_of_lt this
  · exact List.not_mem_nil
  · intro i hi
    cases hi
  · intro j
    rw [releases, releases, Array.getElem?_push]
    split
    · rename_i hj
      simp [hj]
    · exact Nat.le_refl _
  · exact ⟨List.nodup_nil, fun i hi => absurd hi List.not_mem_nil⟩

theorem Sound.inserts (hs : s.Sound) (make : Handle kind → α) :
    s.Inserts (s.insert make).2 (s.insert make).1 (make (s.insert make).1) := by
  cases hf : s.free with
  | nil =>
    simp only [Store.insert, hf]
    exact inserts_new
  | cons i free =>
    obtain ⟨n, hn⟩ := hs.vacant i (hf ▸ List.mem_cons_self)
    simp only [Store.insert, hf, hn, Option.map_some, Option.getD_some]
    exact hs.inserts_vacant hf hn

end Insert

section Occupied

theorem countP_modify {β : Type} (q : β → Bool) (f : β → β) {l : List β} {i : Nat} {b : β}
    (hb : l[i]? = some b) :
    (l.modify i f).countP q + (if q b then 1 else 0) = l.countP q + if q (f b) then 1 else 0 := by
  induction l generalizing i with
  | nil => simp at hb
  | cons c l ih =>
    cases i with
    | zero =>
      simp only [List.getElem?_cons_zero, Option.some.injEq] at hb
      subst hb
      simp only [List.modify_zero_cons, List.countP_cons]
      omega
    | succ i =>
      have := ih (by simpa using hb)
      simp only [List.modify_succ_cons, List.countP_cons]
      omega

theorem occupied_modify {f : α → α} : (s.modify h f).occupied = s.occupied := by
  unfold modify modifySlot
  split
  · rename_i hc
    obtain ⟨slot, hs⟩ := exists_slot? hc
    have hi : s.slots.toList[h.index]? = some slot := by simpa using (slot?_eq_some.1 hs).1
    have := countP_modify (fun slot => slot.value.isSome)
      (fun slot => { slot with value := slot.value.map f }) hi
    simp only [Option.isSome_map] at this
    simpa [occupied, ← Array.countP_toList] using this
  · rfl

theorem occupied_release {a : α} (hg : s.get? h = some a) :
    (s.release h).occupied + 1 = s.occupied := by
  obtain ⟨n, hs⟩ := get?_eq_some.1 hg
  have hi : s.slots.toList[h.index]? = some ⟨n, some a⟩ := by simpa using (slot?_eq_some.1 hs).1
  have := countP_modify (fun slot => slot.value.isSome)
    (fun slot => (⟨slot.releases + 1, none⟩ : Slot α)) hi
  simpa [occupied, release, isCurrent_of_get? hg, ← Array.countP_toList] using this

theorem Sound.occupied_insert (hs : s.Sound) (make : Handle kind → α) :
    (s.insert make).2.occupied = s.occupied + 1 := by
  cases hf : s.free with
  | nil => simp [Store.insert, hf, occupied]
  | cons i free =>
    obtain ⟨n, hn⟩ := hs.vacant i (hf ▸ List.mem_cons_self)
    have hi : s.slots.toList[i]? = some ⟨n, none⟩ := by simpa using hn
    have := countP_modify (fun slot => slot.value.isSome)
      (fun slot => { slot with value := some (make ⟨i, .ofNat n⟩) }) hi
    simpa [occupied, Store.insert, hf, hn, Slot.generation, ← Array.countP_toList] using this

end Occupied

section Freed

/-- How often slots were freed. -/
def freed (s : Store kind α) : Nat := (s.slots.toList.map Slot.releases).sum

/-- What one slot adds to the count is all that a change of it adds. -/
theorem sum_releases_modify (slots : List (Slot α)) (i : Nat) (f : Slot α → Slot α) (n : Nat)
    (hf : ∀ slot, (f slot).releases = slot.releases + n) :
    ((slots.modify i f).map Slot.releases).sum =
      (slots.map Slot.releases).sum + if i < slots.length then n else 0 := by
  by_cases hi : i < slots.length
  · obtain ⟨before, slot, after, hsplit, _, hmodify⟩ := List.exists_of_modify f hi
    rw [if_pos hi, hmodify, hsplit]
    simp only [List.map_append, List.map_cons, List.sum_append, List.sum_cons, hf]
    omega
  · have hnone : slots[i]? = none := List.getElem?_eq_none (Nat.le_of_not_lt hi)
    rw [if_neg hi, List.modify_eq_set_getElem?, hnone]
    rfl

theorem freed_modifySlot {f : Slot α → Slot α} (hf : ∀ slot, (f slot).releases = slot.releases) :
    (s.modifySlot h f).freed = s.freed := by
  unfold modifySlot
  split
  · rw [freed, Array.toList_modify, sum_releases_modify _ _ f 0 hf]
    simp [freed]
  · rfl

theorem freed_insert (make : Handle kind → α) : (s.insert make).2.freed = s.freed := by
  unfold insert
  split
  · rw [freed, Array.toList_modify, sum_releases_modify (n := 0)]
    · simp [freed]
    · exact fun _ => rfl
  · simp [freed]

theorem freed_release (hc : s.isCurrent h = true) : (s.release h).freed = s.freed + 1 := by
  obtain ⟨slot, hs⟩ := exists_slot? hc
  have hi : h.index < s.slots.toList.length := by
    rw [Array.length_toList]
    exact (Array.getElem?_eq_some_iff.1 (slot?_eq_some.1 hs).1).1
  rw [release, if_pos hc, freed, Array.toList_modify, sum_releases_modify (n := 1), if_pos hi]
  · rfl
  · exact fun _ => rfl

end Freed
end Barrage.Store

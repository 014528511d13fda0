import Barrage.Bullet.Pool
import Barrage.Proofs.Store

namespace Barrage.Pool

variable {p p' p'' : Pool} {id k : BulletId} {b : Bullet} {shots : List Bullet}

/-- The handles of the live bullets in order of creation. -/
def ids (p : Pool) : List BulletId := p.order.toList

/-- The live bullets are listed once each, in slots that are theirs alone and hold no other bullet.
A bullet that was taken out leaves its slot empty. -/
structure Sound (p : Pool) : Prop where
  store : p.store.Sound
  nodup : p.ids.Nodup
  current : ∀ id ∈ p.ids, p.store.isCurrent id = true
  reserved : ∀ id ∈ p.ids, id.index ∉ p.store.free
  listed : ∀ id b, p.get? id = some b → id ∈ p.ids ∧ b.id = id

/-- No bullet is taken out. -/
def Seated (p : Pool) : Prop := ∀ id ∈ p.ids, ∃ b, p.get? id = some b

/-- The handle was given out: its bullet is live, or its slot has left the generation. -/
def Issued (p : Pool) (id : BulletId) : Prop := id ∈ p.ids ∨ p.store.IsDead id

theorem sound_ofCapacity (capacity : Nat) : (ofCapacity capacity).Sound where
  store := Store.sound_empty
  nodup := List.nodup_nil
  current := by simp [ofCapacity, ids]
  reserved := by simp [ofCapacity, ids]
  listed := by simp [ofCapacity, get?]

theorem get?_eq_of_slot? (h : p'.store.slot? id = p.store.slot? id) : p'.get? id = p.get? id := by
  rw [get?, get?, Store.get?, Store.get?, h]

theorem isCurrent_eq_of_slot? (h : p'.store.slot? id = p.store.slot? id) :
    p'.store.isCurrent id = p.store.isCurrent id := by
  rw [Store.isCurrent, Store.isCurrent, h]

theorem Sound.index_ne (hs : p.Sound) (hid : id ∈ p.ids) (hk : k ∈ p.ids) (hne : k ≠ id) :
    k.index ≠ id.index := by
  intro hi
  obtain ⟨_, ha⟩ := Store.exists_slot? (hs.current id hid)
  obtain ⟨_, hb⟩ := Store.exists_slot? (hs.current k hk)
  exact hne (Store.eq_of_slot? hb ha hi)

theorem mem_bullets : b ∈ p.bullets ↔ ∃ id ∈ p.ids, p.get? id = some b :=
  List.mem_filterMap

theorem Sound.bullets_map_id (hs : p.Sound) (hp : p.Seated) : p.bullets.map Bullet.id = p.ids := by
  have key (l : List BulletId) (hl : ∀ id ∈ l, ∃ b, p.get? id = some b) :
      (l.filterMap p.get?).map Bullet.id = l := by
    induction l with
    | nil => rfl
    | cons id l ih =>
      obtain ⟨b, hb⟩ := hl id List.mem_cons_self
      rw [List.filterMap_cons_some hb, List.map_cons, (hs.listed id b hb).2,
        ih fun k hk => hl k (List.mem_cons_of_mem _ hk)]
  exact key p.ids hp

section Update

theorem get?_modify {f : Bullet → Bullet} :
    (p.modify id f).get? k = if k = id then (p.get? id).map f else p.get? k := Store.get?_modify

theorem Sound.modify (hs : p.Sound) {f : Bullet → Bullet} (hf : ∀ b, (f b).id = b.id) :
    (p.modify id f).Sound where
  store := hs.store.modify
  nodup := hs.nodup
  current k hk := by
    have h := hs.current k hk
    obtain ⟨slot, hsl⟩ := Store.exists_slot? h
    have hm : (p.store.modify id f).slot? k = _ := Store.slot?_modifySlot fun _ => rfl
    rw [Store.isCurrent, show (p.modify id f).store.slot? k = _ from hm]
    split
    · rename_i he
      rw [← he, hsl]
      rfl
    · exact h
  reserved k hk := by
    rw [show (p.modify id f).store.free = p.store.free from Store.free_modifySlot]
    exact hs.reserved k hk
  listed k b hb := by
    rw [get?_modify] at hb
    split at hb
    · rename_i he
      obtain ⟨b', hb', rfl⟩ := Option.map_eq_some_iff.1 hb
      obtain ⟨hm, hid⟩ := hs.listed id b' hb'
      exact ⟨he ▸ hm, by rw [hf, hid, he]⟩
    · exact hs.listed k b hb

theorem get?_take : (p.take id).2.get? k = if k = id then none else p.get? k := Store.get?_vacate

theorem slot?_take_of_ne (hk : k ≠ id) : (p.take id).2.store.slot? k = p.store.slot? k := by
  rw [take, Store.slot?_vacate, if_neg hk]

theorem isCurrent_take : (p.take id).2.store.isCurrent k = p.store.isCurrent k := by
  rw [Store.isCurrent, Store.isCurrent, take, Store.slot?_vacate]
  split
  · rename_i hk
    simp [hk]
  · rfl

theorem free_take : (p.take id).2.store.free = p.store.free := Store.free_modifySlot

theorem Sound.take (hs : p.Sound) : (p.take id).2.Sound where
  store := hs.store.vacate
  nodup := hs.nodup
  current k hk := isCurrent_take.trans (hs.current k hk)
  reserved k hk := by
    rw [free_take]
    exact hs.reserved k hk
  listed k b hb := by
    rw [get?_take] at hb
    split at hb
    · cases hb
    · exact hs.listed k b hb

theorem Sound.get?_place (hs : p.Sound) (hb : b.id ∈ p.ids) :
    (p.place b).get? k = if k = b.id then some b else p.get? k :=
  Store.get?_put (hs.current _ hb)

theorem slot?_place_of_ne (hk : k ≠ b.id) : (p.place b).store.slot? k = p.store.slot? k := by
  rw [place, Store.slot?_put, if_neg hk]

theorem isCurrent_place : (p.place b).store.isCurrent k = p.store.isCurrent k := by
  rw [Store.isCurrent, Store.isCurrent, place, Store.slot?_put]
  split
  · rename_i hk
    simp [hk]
  · rfl

theorem free_place : (p.place b).store.free = p.store.free := Store.free_modifySlot

theorem grows_place : p.store.Grows (p.place b).store := Store.grows_put

theorem Sound.place (hs : p.Sound) (hb : b.id ∈ p.ids) : (p.place b).Sound where
  store := hs.store.put (hs.reserved _ hb)
  nodup := hs.nodup
  current k hk := isCurrent_place.trans (hs.current k hk)
  reserved k hk := by
    rw [free_place]
    exact hs.reserved k hk
  listed k c hc := by
    rw [hs.get?_place hb] at hc
    split at hc
    · rename_i he
      cases hc
      exact ⟨he ▸ hb, he.symm⟩
    · exact hs.listed k c hc

end Update

section Remove

theorem remove_of_not_current (hc : p.store.isCurrent id = false) : p.remove id = (none, p) := by
  simp [remove, hc]

theorem remove_of_current (hc : p.store.isCurrent id = true) :
    p.remove id = (p.get? id,
      { p with store := p.store.release id, order := p.order.filter (· != id) }) := by
  simp [remove, hc]

theorem grows_remove : p.store.Grows (p.remove id).2.store := by
  unfold remove
  split
  · exact Store.grows_release
  · exact .refl _

theorem get?_remove : (p.remove id).2.get? k = if k = id then none else p.get? k := by
  cases hc : p.store.isCurrent id with
  | true =>
    rw [remove_of_current hc]
    exact Store.get?_release
  | false =>
    rw [remove_of_not_current hc]
    split
    · rename_i hk
      cases hg : p.get? k with
      | none => rfl
      | some b =>
        rw [← hk, Store.isCurrent_of_get? hg] at hc
        cases hc
    · rfl

theorem Sound.ids_remove (hs : p.Sound) (hid : id ∈ p.ids) :
    (p.remove id).2.ids = p.ids.filter (· != id) := by
  rw [remove_of_current (hs.current id hid), ids, ids, Array.toList_filter]

theorem Sound.slot?_remove (hs : p.Sound) (hid : id ∈ p.ids) (hk : k ∈ p.ids) (hne : k ≠ id) :
    (p.remove id).2.store.slot? k = p.store.slot? k := by
  rw [remove_of_current (hs.current id hid)]
  exact Store.slot?_release_of_ne (hs.index_ne hid hk hne)

theorem Sound.isDead_remove (hs : p.Sound) (hid : id ∈ p.ids) :
    (p.remove id).2.store.IsDead id := by
  rw [remove_of_current (hs.current id hid)]
  exact Store.isDead_release (hs.current id hid)

theorem Sound.remove (hs : p.Sound) (hid : id ∈ p.ids) : (p.remove id).2.Sound := by
  have hmem {k} (hk : k ∈ (p.remove id).2.ids) : k ∈ p.ids ∧ k ≠ id := by
    rw [hs.ids_remove hid] at hk
    simpa using hk
  have hfree : (p.remove id).2.store.free = id.index :: p.store.free := by
    rw [remove_of_current (hs.current id hid)]
    exact Store.free_release (hs.current id hid)
  constructor
  · rw [remove_of_current (hs.current id hid)]
    exact hs.store.release (hs.reserved id hid)
  · rw [hs.ids_remove hid]
    exact hs.nodup.filter _
  · intro k hk
    obtain ⟨hk, hne⟩ := hmem hk
    rw [isCurrent_eq_of_slot? (hs.slot?_remove hid hk hne)]
    exact hs.current k hk
  · intro k hk
    obtain ⟨hk, hne⟩ := hmem hk
    rw [hfree, List.mem_cons, not_or]
    exact ⟨hs.index_ne hid hk hne, hs.reserved k hk⟩
  · intro k b hb
    rw [get?_remove] at hb
    split at hb
    · cases hb
    · rename_i hne
      obtain ⟨hm, hb'⟩ := hs.listed k b hb
      refine ⟨?_, hb'⟩
      rw [hs.ids_remove hid]
      simpa using ⟨hm, hne⟩

end Remove

/-- `p'` has one more slot in use than `p`, that of `id`, whatever it holds. -/
structure Reserves (p p' : Pool) (id : BulletId) : Prop where
  ids : p'.ids = p.ids ++ [id]
  fresh : id ∉ p.ids
  kept : ∀ k ∈ p.ids, p'.store.slot? k = p.store.slot? k
  grows : p.store.Grows p'.store
  sound : p'.Sound

/-- `p'` holds some more bullets than `p`, and has not touched the others or their slots. -/
structure Adds (p p' : Pool) (shots : List Bullet) : Prop where
  ids : p'.ids = p.ids ++ shots.map Bullet.id
  kept : ∀ k ∈ p.ids, p'.store.slot? k = p.store.slot? k
  added : ∀ b ∈ shots, p'.get? b.id = some b
  grows : p.store.Grows p'.store
  sound : p'.Sound

theorem Adds.refl (hs : p.Sound) : p.Adds p [] where
  ids := by simp
  kept _ _ := rfl
  added _ h := absurd h List.not_mem_nil
  grows := .refl _
  sound := hs

theorem Adds.trans {more : List Bullet} (h₁ : p.Adds p' shots) (h₂ : p'.Adds p'' more) :
    p.Adds p'' (shots ++ more) where
  ids := by rw [h₂.ids, h₁.ids, List.map_append, List.append_assoc]
  kept k hk := by
    rw [h₂.kept k (by rw [h₁.ids]; exact List.mem_append_left _ hk), h₁.kept k hk]
  added b hb := by
    rcases List.mem_append.1 hb with hb | hb
    · have hm : b.id ∈ p'.ids := by
        rw [h₁.ids]
        exact List.mem_append_right _ (List.mem_map_of_mem hb)
      rw [get?_eq_of_slot? (h₂.kept _ hm)]
      exact h₁.added b hb
    · exact h₂.added b hb
  grows := h₁.grows.trans h₂.grows
  sound := h₂.sound

theorem Sound.reserves {store : Store .bullet Bullet} (hs : p.Sound)
    (hi : p.store.Inserts store id (.atRest id)) :
    p.Reserves { p with store, order := p.order.push id } id := by
  have hids : (p.order.push id).toList = p.ids ++ [id] := by simp [ids]
  have hne (k) (hk : k ∈ p.ids) : k.index ≠ id.index :=
    hi.unclaimed k (hs.current k hk) (hs.reserved k hk)
  have hmem {k} (hk : k ∈ (p.order.push id).toList) : k ∈ p.ids ∨ k = id := by
    rw [hids] at hk
    simpa using hk
  refine ⟨hids, fun hm => hne id hm rfl, fun k hk => hi.others k (hne k hk), hi.grows, ?_⟩
  refine ⟨hi.sound, ?_, ?_, ?_, ?_⟩
  · rw [ids, hids, List.nodup_append]
    refine ⟨hs.nodup, by simp, fun k hk l hl he => hne k hk ?_⟩
    rw [he, List.mem_singleton.1 hl]
  · intro k hk
    rcases hmem hk with hk | rfl
    · rw [Store.isCurrent, hi.others k (hne k hk)]
      exact hs.current k hk
    · obtain ⟨n, hn⟩ := hi.slot
      rw [Store.isCurrent, hn]
      rfl
  · intro k hk
    rcases hmem hk with hk | rfl
    · exact fun hm => hs.reserved k hk (hi.free _ hm)
    · exact hi.reserved
  · intro k b hb
    rw [get?, hi.get?] at hb
    rw [ids, hids]
    split at hb
    · rename_i he
      cases hb
      exact ⟨by simp [he], he.symm⟩
    · obtain ⟨hm, hb'⟩ := hs.listed k b hb
      exact ⟨List.mem_append_left _ hm, hb'⟩

theorem Sound.create (hs : p.Sound) :
    (p.isFull = true ∧ p.create = (none, p)) ∨
      ∃ id p', p.isFull = false ∧ p.create = (some id, p') ∧ p.Reserves p' id := by
  cases hf : p.isFull with
  | true => exact .inl ⟨rfl, by simp [Pool.create, hf]⟩
  | false =>
    refine .inr ⟨_, _, rfl, ?_, hs.reserves (hs.store.inserts Bullet.atRest)⟩
    simp [Pool.create, hf]

theorem Sound.reserves_create (hs : p.Sound) (h : p.create = (some id, p')) :
    p.Reserves p' id := by
  rcases hs.create with ⟨_, he⟩ | ⟨k, q, _, he, hr⟩
  · rw [he] at h
    cases h
  · rw [he] at h
    cases h
    exact hr

theorem Reserves.ne (h : p.Reserves p' id) (hk : k ∈ p.ids) : k ≠ id :=
  fun he => h.fresh (he ▸ hk)

theorem Reserves.mem (h : p.Reserves p' id) : id ∈ p'.ids := by
  rw [h.ids]
  exact List.mem_append_right _ (List.mem_singleton_self _)

theorem Reserves.take (h : p.Reserves p' id) : p.Reserves (p'.take id).2 id where
  ids := h.ids
  fresh := h.fresh
  kept k hk := (slot?_take_of_ne (h.ne hk)).trans (h.kept k hk)
  grows := h.grows.trans Store.grows_vacate
  sound := h.sound.take

theorem Sound.get?_create (hs : p.Sound) (h : p.create = (some id, p')) :
    p'.get? id = some (.atRest id) := by
  have hi := hs.store.inserts Bullet.atRest
  unfold Pool.create at h
  split at h
  · cases h
  · cases h
    exact hi.get?.trans (if_pos rfl)

theorem Reserves.modify {f : Bullet → Bullet} (h : p.Reserves p' id) (hb : p'.get? id = some b)
    (hf : ∀ b, (f b).id = b.id) : p.Adds (p'.modify id f) [f b] where
  ids := by
    rw [List.map_singleton, hf, (h.sound.listed id b hb).2]
    exact h.ids
  kept k hk := by
    have hm : (p'.modify id f).store.slot? k = _ := Store.slot?_modifySlot fun _ => rfl
    rw [hm, if_neg (h.ne hk)]
    exact h.kept k hk
  added c hc := by
    rw [List.mem_singleton.1 hc, hf, (h.sound.listed id b hb).2, get?_modify, if_pos rfl, hb]
    rfl
  grows := h.grows.trans Store.grows_modify
  sound := h.sound.modify hf

theorem Reserves.place (h : p.Reserves p' b.id) : p.Adds (p'.place b) [b] where
  ids := h.ids
  kept k hk := (slot?_place_of_ne (h.ne hk)).trans (h.kept k hk)
  added c hc := by
    rw [List.mem_singleton.1 hc, h.sound.get?_place h.mem, if_pos rfl]
  grows := h.grows.trans grows_place
  sound := h.sound.place h.mem

theorem Reserves.freed_remove (h : p.Reserves p' id) :
    (p'.remove id).2.store.freed = p'.store.freed + 1 := by
  have hc := h.sound.current id h.mem
  rw [Pool.remove, if_pos hc]
  exact Store.freed_release hc

/-- Giving a new slot back leaves the live bullets as they were. -/
theorem Reserves.remove (h : p.Reserves p' id) : p.Adds (p'.remove id).2 [] where
  ids := by
    have hself : p.ids.filter (· != id) = p.ids :=
      List.filter_eq_self.2 fun k hk => by simpa using h.ne hk
    rw [h.sound.ids_remove h.mem, h.ids, List.filter_append, hself]
    simp
  kept k hk := by
    have hk' : k ∈ p'.ids := by
      rw [h.ids]
      exact List.mem_append_left _ hk
    rw [h.sound.slot?_remove h.mem hk' (h.ne hk), h.kept k hk]
  added _ hb := absurd hb List.not_mem_nil
  grows := h.grows.trans grows_remove
  sound := h.sound.remove h.mem

section Bullets

theorem filterMap_perm {l : List BulletId} {f f' : BulletId → Option Bullet} (hl : l.Nodup)
    (hid : id ∈ l) (hf : f id = some b) (hn : f' id = none) (hk : ∀ k, k ≠ id → f' k = f k) :
    (l.filterMap f).Perm (b :: l.filterMap f') := by
  induction l with
  | nil => cases hid
  | cons k l ih =>
    obtain ⟨hkl, hl⟩ := List.nodup_cons.1 hl
    rcases List.mem_cons.1 hid with rfl | hm
    · have hsame : l.filterMap f' = l.filterMap f :=
        List.filterMap_congr fun k hm => hk k fun he => hkl (he ▸ hm)
      rw [List.filterMap_cons_some hf, List.filterMap_cons_none hn, hsame]
    · have hne : k ≠ id := fun he => hkl (he ▸ hm)
      have hfk := hk k hne
      cases hv : f k with
      | none =>
        rw [List.filterMap_cons_none hv, List.filterMap_cons_none (hfk.trans hv)]
        exact ih hl hm
      | some c =>
        rw [List.filterMap_cons_some hv, List.filterMap_cons_some (hfk.trans hv)]
        exact ((ih hl hm).cons c).trans (.swap b c _)

theorem Sound.bullets_take (hs : p.Sound) (hb : p.get? id = some b) :
    p.bullets.Perm (b :: (p.take id).2.bullets) :=
  filterMap_perm hs.nodup (hs.listed id b hb).1 hb (by rw [get?_take, if_pos rfl])
    fun k hk => by rw [get?_take, if_neg hk]

theorem Sound.bullets_place (hs : p.Sound) (hb : b.id ∈ p.ids) (hn : p.get? b.id = none) :
    (p.place b).bullets.Perm (b :: p.bullets) :=
  filterMap_perm hs.nodup hb (by rw [hs.get?_place hb, if_pos rfl]) hn
    fun k hk => by rw [hs.get?_place hb, if_neg hk]

theorem Sound.bullets_modify (hs : p.Sound) (hb : p.get? id = some b) {f : Bullet → Bullet} :
    (p.modify id f).bullets.Perm (f b :: (p.take id).2.bullets) :=
  filterMap_perm hs.nodup (hs.listed id b hb).1 (by rw [get?_modify, if_pos rfl, hb]; rfl)
    (by rw [get?_take, if_pos rfl]) fun k hk => by rw [get?_take, get?_modify, if_neg hk, if_neg hk]

theorem get?_modify_of_none (hn : p.get? id = none) {f : Bullet → Bullet} :
    (p.modify id f).get? k = p.get? k := by
  rw [get?_modify]
  split
  · rename_i hk
    rw [hk, hn]
    rfl
  · rfl

theorem Sound.bullets_remove (hs : p.Sound) (hb : p.get? id = some b) :
    p.bullets.Perm (b :: (p.remove id).2.bullets) := by
  have hid := (hs.listed id b hb).1
  have hn : (p.remove id).2.get? id = none := by rw [get?_remove, if_pos rfl]
  have hp : (p.ids.filterMap p.get?).Perm (b :: p.ids.filterMap (p.remove id).2.get?) :=
    filterMap_perm hs.nodup hid hb hn fun k hk => by rw [get?_remove, if_neg hk]
  have hfilter (l : List BulletId) : (l.filter (· != id)).filterMap (p.remove id).2.get? =
      l.filterMap (p.remove id).2.get? := by
    induction l with
    | nil => rfl
    | cons k l ih =>
      by_cases hk : k = id
      · rw [List.filter_cons_of_neg (by simp [hk]), ih, hk, List.filterMap_cons_none hn]
      · rw [List.filter_cons_of_pos (by simp [hk]), List.filterMap_cons, List.filterMap_cons, ih]
  rw [bullets, bullets, show (p.remove id).2.order.toList = _ from hs.ids_remove hid, hfilter]
  exact hp

theorem filterMap_map_id {bs : List Bullet} (h : ∀ b ∈ bs, p.get? b.id = some b) :
    (bs.map Bullet.id).filterMap p.get? = bs := by
  induction bs with
  | nil => rfl
  | cons b bs ih =>
    rw [List.map_cons, List.filterMap_cons_some (h b List.mem_cons_self),
      ih fun c hc => h c (List.mem_cons_of_mem _ hc)]

theorem Adds.bullets (h : p.Adds p' shots) : p'.bullets = p.bullets ++ shots := by
  rw [Pool.bullets, show p'.order.toList = _ from h.ids, List.filterMap_append,
    filterMap_map_id h.added]
  congr 1
  exact List.filterMap_congr fun k hk => get?_eq_of_slot? (h.kept k hk)

end Bullets

/-- `p'` is `p` with some more bullets and with `b` in place of the bullet that had its handle. -/
structure Returns (p p' : Pool) (b : Bullet) (shots : List Bullet) : Prop where
  ids : p'.ids = p.ids ++ shots.map Bullet.id
  placed : p'.get? b.id = some b
  others : ∀ k ∈ p.ids, k ≠ b.id → p'.get? k = p.get? k
  added : ∀ shot ∈ shots, p'.get? shot.id = some shot
  bullets : p'.bullets.Perm (b :: shots ++ (p.take b.id).2.bullets)
  grows : p.store.Grows p'.store
  sound : p'.Sound

/-- A bullet that was taken out while others were added is put back. -/
theorem Adds.returns (hid : b.id ∈ p.ids) (ha : (p.take b.id).2.Adds p' shots) :
    p.Returns (p'.place b) b shots := by
  have hids : p'.ids = p.ids ++ shots.map Bullet.id := ha.ids
  have hmem : b.id ∈ p'.ids := by
    rw [hids]
    exact List.mem_append_left _ hid
  have hkept (k) (hk : k ∈ p.ids) : p'.get? k = if k = b.id then none else p.get? k :=
    (get?_eq_of_slot? (ha.kept k hk)).trans get?_take
  have hget (k) (hne : k ≠ b.id) : (p'.place b).get? k = p'.get? k := by
    rw [ha.sound.get?_place hmem, if_neg hne]
  have hself : (p'.place b).get? b.id = some b := by
    rw [ha.sound.get?_place hmem, if_pos rfl]
  refine ⟨hids, hself, ?_, ?_, ?_, (Store.grows_vacate.trans ha.grows).trans grows_place,
    ha.sound.place hmem⟩
  · intro k hk hne
    rw [hget k hne, hkept k hk, if_neg hne]
  · intro shot hshot
    have hnodup := ha.sound.nodup
    rw [hids] at hnodup
    have hne : shot.id ≠ b.id := fun hi =>
      (List.nodup_append.1 hnodup).2.2 _ hid _ (List.mem_map_of_mem hshot) hi.symm
    rw [hget _ hne]
    exact ha.added shot hshot
  · have hnone : p'.get? b.id = none := (hkept _ hid).trans (if_pos rfl)
    have hperm := ha.sound.bullets_place hmem hnone
    rw [ha.bullets] at hperm
    exact hperm.trans (List.perm_append_comm.cons b)

theorem Returns.mem (h : p.Returns p' b shots) (hk : k ∈ p.ids) : k ∈ p'.ids := by
  rw [h.ids]
  exact List.mem_append_left _ hk

theorem Returns.seated (h : p.Returns p' b shots) (hs : p.Seated) : p'.Seated := by
  intro k hk
  rw [h.ids] at hk
  rcases List.mem_append.1 hk with hk | hk
  · by_cases hkb : k = b.id
    · exact ⟨b, hkb ▸ h.placed⟩
    · rw [h.others k hk hkb]
      exact hs k hk
  · obtain ⟨shot, hshot, rfl⟩ := List.mem_map.1 hk
    exact ⟨shot, h.added shot hshot⟩

theorem Issued.grows (h : p.Issued id) (hids : ∀ k ∈ p.ids, k ∈ p'.ids ∨ p'.store.IsDead k)
    (hg : p.store.Grows p'.store) : p'.Issued id :=
  h.elim (hids id) fun hd => .inr (hd.grows hg)

end Barrage.Pool

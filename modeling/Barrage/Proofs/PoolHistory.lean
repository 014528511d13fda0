import Barrage.Proofs.Pool
import Barrage.Simulation.Basic
import Mathlib.Data.List.Perm.Basic

namespace Barrage

section Slots

variable {kind : HandleKind} {α : Type} {s : Store kind α} {h : Handle kind}

theorem Store.size_modifySlot {f : Slot α → Slot α} :
    (s.modifySlot h f).slots.size = s.slots.size := by
  unfold modifySlot
  split <;> simp

theorem Store.size_release : (s.release h).slots.size = s.slots.size := by
  unfold release
  split <;> simp

theorem Store.grows_insert (make : Handle kind → α) : s.Grows (s.insert make).2 := by
  intro i
  apply Nat.le_of_eq
  unfold Store.insert
  cases s.free with
  | nil =>
    simp only [releases, Array.getElem?_push]
    split
    · rename_i hi
      simp [hi]
    · rfl
  | cons j free =>
    simp only [releases, Array.getElem?_modify]
    split
    · cases s.slots[i]? <;> rfl
    · rfl

theorem Store.modifySlot_of_not_current {f : Slot α → Slot α} (hc : s.isCurrent h = false) :
    s.modifySlot h f = s := by
  simp [modifySlot, hc]

end Slots

namespace Pool

/-- What became of a pool: the handles that it gave out, in order, those of the bullets that were
removed, those of the bullets that were taken out and not put back, and its largest capacity. -/
structure Ledger where
  issued : List BulletId
  removed : List BulletId
  away : List BulletId
  peak : Nat

/-- The pool is as its ledger says: the bullets that were not removed are listed in the order of
their creation, and every slot is either free or that of one of them. -/
structure Tracks (l : Ledger) (p : Pool) : Prop where
  sound : p.Sound
  distinct : l.issued.Nodup
  listed : p.ids = l.issued.filter (· ∉ l.removed)
  dead : ∀ id ∈ l.removed, p.store.IsDead id
  seats : ∀ id ∈ p.ids, (∃ b, p.get? id = some b) ∨ id ∈ l.away
  tiles : (p.store.free ++ p.ids.map Handle.index).Perm (.range p.store.slots.size)
  slots : p.store.slots.size ≤ l.peak
  capacity : p.capacity ≤ l.peak

variable {l : Ledger} {p p' : Pool} {id : BulletId} {b : Bullet} {s : Simulation}

theorem Tracks.mem_ids (h : Tracks l p) : id ∈ p.ids ↔ id ∈ l.issued ∧ id ∉ l.removed := by
  rw [h.listed, List.mem_filter, decide_eq_true_iff]

theorem Tracks.not_current (h : Tracks l p) (hw : p.store.NoWrap) (hid : id ∈ l.removed) :
    p.store.isCurrent id = false := by
  rw [Store.isCurrent, (h.dead id hid).slot? hw]
  rfl

/-- Every slot is in use once no slot is free. -/
theorem Tracks.size_of_full (h : Tracks l p) (hf : p.store.free = []) :
    p.store.slots.size = p.size := by
  have hl := h.tiles.length_eq
  rw [hf, List.nil_append, List.length_map, List.length_range] at hl
  rw [← hl, ids, Array.length_toList, size]

section Create

/-- A new slot is added only when all slots are in use, and otherwise the one freed last serves. -/
theorem Tracks.tiles_create (h : Tracks l p) (hf : p.isFull = false) :
    (p.create.2.store.free ++ p.create.2.ids.map Handle.index).Perm
        (.range p.create.2.store.slots.size) ∧
      p.create.2.store.slots.size ≤ l.peak := by
  have hroom : p.size < p.capacity := by simpa [isFull] using hf
  cases hfree : p.store.free with
  | nil =>
    have hsize := h.size_of_full hfree
    have ht := h.tiles
    rw [hfree, List.nil_append] at ht
    have hcap := h.capacity
    simp only [Pool.create, hf, Store.insert, hfree, ids]
    constructor
    · simpa [List.range_succ, ids] using ht.append_right [p.store.slots.size]
    · simp only [Bool.false_eq_true, if_false, Array.size_push]
      omega
  | cons i free =>
    have ht := h.tiles
    rw [hfree, List.cons_append] at ht
    simp only [Pool.create, hf, Store.insert, hfree, ids]
    constructor
    · have hmove : (free ++ (p.ids.map Handle.index ++ [i])).Perm
          (i :: (free ++ p.ids.map Handle.index)) := by
        rw [← List.append_assoc]
        exact List.perm_append_singleton i _
      simpa [ids] using hmove.trans ht
    · simpa using h.slots

/-- A handle that was given out before is of a live bullet or of a slot that has left its
generation, so a new one differs from it. -/
theorem Tracks.fresh (h : Tracks l p) (hr : p.Reserves p' id) (hw : p'.store.NoWrap) :
    id ∉ l.issued ∧ id ∉ l.removed := by
  have hremoved : id ∉ l.removed := by
    intro hid
    have hc := hr.sound.current id hr.mem
    rw [Store.isCurrent, ((h.dead id hid).grows hr.grows).slot? hw] at hc
    cases hc
  refine ⟨?_, hremoved⟩
  intro hid
  exact hr.fresh (h.mem_ids.2 ⟨hid, hremoved⟩)

theorem Tracks.create (h : Tracks l p) (hw : p.create.2.store.NoWrap) :
    Tracks { l with issued := l.issued ++ p.create.1.toList } p.create.2 := by
  rcases h.sound.create with ⟨_, he⟩ | ⟨id, p', hf, he, hr⟩
  · simpa [he] using h
  · have ht := h.tiles_create hf
    rw [he] at hw ht ⊢
    obtain ⟨hissued, hremoved⟩ := h.fresh hr hw
    refine ⟨hr.sound, ?_, ?_, fun k hk => (h.dead k hk).grows hr.grows, ?_, ht.1, ht.2, ?_⟩
    · exact List.nodup_append.2 ⟨h.distinct, List.nodup_singleton id, fun k hk m hm he =>
        hissued (List.mem_singleton.1 hm ▸ he ▸ hk)⟩
    · rw [hr.ids, h.listed]
      simp [List.filter_append, hremoved]
    · intro k hk
      rw [hr.ids] at hk
      rcases List.mem_append.1 hk with hk | hk
      · rw [get?_eq_of_slot? (hr.kept k hk)]
        exact h.seats k hk
      · rw [List.mem_singleton.1 hk]
        exact .inl ⟨_, h.sound.get?_create he⟩
    · have hcap : p'.capacity = p.capacity := by
        simp only [Pool.create, hf] at he
        cases he
        rfl
      rw [hcap]
      exact h.capacity

end Create

section Remove

theorem Tracks.tiles_remove (h : Tracks l p) (hid : id ∈ p.ids) :
    ((p.remove id).2.store.free ++ (p.remove id).2.ids.map Handle.index).Perm
      (.range (p.remove id).2.store.slots.size) := by
  have hcur := h.sound.current id hid
  have hids : p.ids.Perm (id :: p.ids.filter (· != id)) := by
    rw [← h.sound.nodup.erase_eq_filter]
    exact List.perm_cons_erase hid
  have hsize : (p.remove id).2.store.slots.size = p.store.slots.size := by
    rw [remove_of_current hcur]
    exact Store.size_release
  have hfree : (p.remove id).2.store.free = id.index :: p.store.free := by
    rw [remove_of_current hcur]
    exact Store.free_release hcur
  rw [hsize, hfree, h.sound.ids_remove hid]
  calc id.index :: p.store.free ++ (p.ids.filter (· != id)).map Handle.index
      _ |>.Perm (p.store.free ++ (id :: p.ids.filter (· != id)).map Handle.index) :=
        List.perm_middle.symm
      _ |>.Perm (p.store.free ++ p.ids.map Handle.index) := (hids.map _).symm.append_left _
      _ |>.Perm (.range p.store.slots.size) := h.tiles

theorem Tracks.remove (h : Tracks l p) (hid : id ∈ l.issued) (hw : p.store.NoWrap) :
    Tracks { l with removed := l.removed ++ [id] } (p.remove id).2 := by
  by_cases hr : id ∈ l.removed
  · have hmem (k) : k ∈ l.removed ++ [id] ↔ k ∈ l.removed := by
      rw [List.mem_append, List.mem_singleton, or_iff_left_of_imp fun hk => hk ▸ hr]
    rw [remove_of_not_current (h.not_current hw hr)]
    refine ⟨h.sound, h.distinct, ?_, fun k hk => h.dead k ((hmem k).1 hk), h.seats, h.tiles,
      h.slots, h.capacity⟩
    simp only [hmem]
    exact h.listed
  · have hlive := h.mem_ids.2 ⟨hid, hr⟩
    refine ⟨h.sound.remove hlive, h.distinct, ?_, ?_, ?_, h.tiles_remove hlive, ?_, ?_⟩
    · rw [h.sound.ids_remove hlive, h.listed, List.filter_filter]
      exact List.filter_congr fun k _ => by simp [bne, BEq.beq, Bool.and_comm]
    · intro k hk
      rcases List.mem_append.1 hk with hk | hk
      · exact (h.dead k hk).grows grows_remove
      · rw [List.mem_singleton.1 hk]
        exact h.sound.isDead_remove hlive
    · intro k hk
      rw [h.sound.ids_remove hlive, List.mem_filter] at hk
      rw [get?_remove, if_neg (by simpa using hk.2)]
      exact h.seats k hk.1
    · rw [remove_of_current (h.sound.current id hlive), Store.size_release]
      exact h.slots
    · rw [remove_of_current (h.sound.current id hlive)]
      exact h.capacity

end Remove

section Seats

/-- Only what the slots hold has changed, and whether a bullet is there is known. -/
theorem Tracks.reseat {away : List BulletId} (h : Tracks l p) (hs : p'.Sound)
    (hids : p'.ids = p.ids) (hfree : p'.store.free = p.store.free)
    (hsize : p'.store.slots.size = p.store.slots.size) (hcap : p'.capacity = p.capacity)
    (hg : p.store.Grows p'.store)
    (hseats : ∀ id ∈ p.ids, (∃ b, p'.get? id = some b) ∨ id ∈ away) :
    Tracks { l with away } p' where
  sound := hs
  distinct := h.distinct
  listed := hids.trans h.listed
  dead id hid := (h.dead id hid).grows hg
  seats := hids ▸ hseats
  tiles := by
    rw [hfree, hids, hsize]
    exact h.tiles
  slots := hsize ▸ h.slots
  capacity := hcap ▸ h.capacity

theorem Tracks.modify (h : Tracks l p) {f : Bullet → Bullet} (hf : ∀ b, (f b).id = b.id) :
    Tracks l (p.modify id f) := by
  apply h.reseat (h.sound.modify hf) rfl Store.free_modifySlot Store.size_modifySlot rfl
    Store.grows_modify
  intro k hk
  rw [get?_modify]
  split
  · rename_i he
    rw [← he]
    refine (h.seats k hk).imp_left ?_
    rintro ⟨b, hb⟩
    exact ⟨f b, by rw [hb]; rfl⟩
  · exact h.seats k hk

theorem Tracks.take (h : Tracks l p) : Tracks { l with away := l.away ++ [id] } (p.take id).2 := by
  apply h.reseat h.sound.take rfl free_take Store.size_modifySlot rfl Store.grows_vacate
  intro k hk
  rw [get?_take]
  split
  · rename_i he
    exact .inr (List.mem_append_right _ (List.mem_singleton.2 he))
  · exact (h.seats k hk).imp_right (List.mem_append_left _)

theorem Tracks.place (h : Tracks l p) (hb : b.id ∈ l.issued) (hw : p.store.NoWrap) :
    Tracks { l with away := l.away.filter (· ≠ b.id) } (p.place b) := by
  have haway (k) (hk : k ∈ p.ids) (hne : k ≠ b.id) :
      (∃ c, p.get? k = some c) ∨ k ∈ l.away.filter (· ≠ b.id) :=
    (h.seats k hk).imp_right fun hk => List.mem_filter.2 ⟨hk, decide_eq_true hne⟩
  by_cases hr : b.id ∈ l.removed
  · have he : p.place b = p := by
      rw [Pool.place, Store.put, Store.modifySlot_of_not_current (h.not_current hw hr)]
    rw [he]
    apply h.reseat h.sound rfl rfl rfl rfl (.refl _)
    intro k hk
    exact haway k hk fun he => (h.mem_ids.1 hk).2 (he ▸ hr)
  · have hlive := h.mem_ids.2 ⟨hb, hr⟩
    apply h.reseat (h.sound.place hlive) rfl free_place Store.size_modifySlot rfl grows_place
    intro k hk
    rw [h.sound.get?_place hlive]
    split
    · exact .inl ⟨b, rfl⟩
    · rename_i hne
      exact haway k hk hne

end Seats

section SetCapacity

theorem pool_vanish (s : Simulation) (id : BulletId) :
    (s.vanish id).2.pool = (s.pool.remove id).2 := by
  unfold Simulation.vanish
  split <;> rename_i he <;> rw [he]

theorem grows_evict (excess : Nat) (s : Simulation) :
    s.pool.store.Grows (Simulation.evict excess s).pool.store := by
  induction excess generalizing s with
  | zero => exact .refl _
  | succ excess ih =>
    rw [Simulation.evict]
    cases s.pool.idAt? 0 with
    | none => exact .refl _
    | some id =>
      have hv : s.pool.store.Grows (s.vanish id).2.pool.store := by
        rw [pool_vanish]
        exact grows_remove
      exact hv.trans (ih _)

theorem Tracks.evict {excess : Nat} (h : Tracks l s.pool)
    (hw : (Simulation.evict excess s).pool.store.NoWrap) :
    Tracks { l with removed := l.removed ++ s.pool.ids.take excess }
        (Simulation.evict excess s).pool ∧
      (Simulation.evict excess s).pool.ids = s.pool.ids.drop excess ∧
      (Simulation.evict excess s).pool.capacity = s.pool.capacity := by
  induction excess generalizing l s with
  | zero => exact ⟨by simpa [Simulation.evict] using h, rfl, rfl⟩
  | succ excess ih =>
    have hat : s.pool.idAt? 0 = s.pool.ids.head? := by
      rw [Pool.idAt?, ids, List.head?_eq_getElem?, Array.getElem?_toList]
    rw [Simulation.evict] at hw ⊢
    cases hids : s.pool.ids with
    | nil =>
      rw [hat, hids]
      exact ⟨by simpa using h, hids, rfl⟩
    | cons id rest =>
      have hid : id ∈ s.pool.ids := hids ▸ List.mem_cons_self
      rw [hat, hids, List.head?_cons] at hw ⊢
      have hpool := pool_vanish s id
      have hrest : (s.vanish id).2.pool.ids = rest := by
        have hn := List.nodup_cons.1 (hids ▸ h.sound.nodup)
        rw [hpool, h.sound.ids_remove hid, hids, List.filter_cons_of_neg (by simp)]
        exact List.filter_eq_self.2 fun k hk => by simpa using ne_of_mem_of_not_mem hk hn.1
      have hold : s.pool.store.NoWrap :=
        (hpool ▸ grows_remove).noWrap ((grows_evict excess (s.vanish id).2).noWrap hw)
      obtain ⟨ht, hdrop, hcap⟩ := ih (hpool ▸ h.remove (h.mem_ids.1 hid).1 hold) hw
      refine ⟨?_, ?_, ?_⟩
      · simpa [hrest] using ht
      · rw [hdrop, hrest, List.drop_succ_cons]
      · rw [hcap, hpool, remove_of_current (h.sound.current id hid)]

theorem Tracks.setCapacity {capacity : Nat} (h : Tracks l s.pool)
    (hw : (s.setCapacity capacity).pool.store.NoWrap) :
    Tracks { l with
        removed := l.removed ++ s.pool.ids.take (s.size - capacity)
        peak := max l.peak capacity } (s.setCapacity capacity).pool ∧
      (s.setCapacity capacity).pool.size ≤ (s.setCapacity capacity).pool.capacity := by
  have ht : Tracks { l with peak := max l.peak capacity } (s.pool.setCapacity capacity) := by
    obtain ⟨hsound, hdistinct, hlisted, hdead, hseats, htiles, hslots, _⟩ := h
    exact ⟨⟨hsound.store, hsound.nodup, hsound.current, hsound.reserved, hsound.listed⟩, hdistinct,
      hlisted, hdead, hseats, htiles, Nat.le_trans hslots (Nat.le_max_left _ _),
      Nat.le_max_right _ _⟩
  obtain ⟨ht', hids, hcap⟩ :=
    Tracks.evict (s := { s with pool := s.pool.setCapacity capacity }) ht hw
  refine ⟨ht', ?_⟩
  have hsize : (s.setCapacity capacity).pool.size = s.size - (s.size - capacity) := by
    have hl := congrArg List.length hids
    rw [List.length_drop] at hl
    exact hl
  have hcapacity : (s.setCapacity capacity).pool.capacity = capacity := hcap
  rw [hsize, hcapacity]
  omega

end SetCapacity

end Pool
end Barrage

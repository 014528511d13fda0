import Barrage.Proofs.Owned
import Barrage.Simulation.Frame

namespace Barrage.Simulation

/-- No slot of a bullet or a task was freed so often that its generations began anew. -/
def NoWrap (s : Simulation) : Prop := s.pool.store.NoWrap ∧ s.tasks.NoWrap

instance (s : Simulation) : Decidable s.NoWrap :=
  inferInstanceAs (Decidable (s.pool.store.NoWrap ∧ s.tasks.NoWrap))

/-- Every bullet is in its place, and the bullets own all tasks there are. If `g` holds, `Q` is
known of their patterns, and only such patterns were ever stopped by a fault. -/
structure Orderly (g : Prop) (Q : Pattern → Prop) (s : Simulation) : Prop where
  pool : s.pool.Sound
  seated : s.pool.Seated
  arena : s.tasks.Sound
  tended : ∃ X, s.tasks.Tended g Q s.bullets X
  stops : g → ∀ name id e, .bulletStopped name id e ∈ s.notices → ∃ p, Q p ∧ p.Raises e

/-- Bullets that were live still are, or can never be again. -/
structure Advances (s s' : Simulation) : Prop where
  grows : s.pool.store.Grows s'.pool.store
  gone : ∀ k ∈ s.pool.ids, k ∈ s'.pool.ids ∨ s'.pool.store.IsDead k

variable {g : Prop} {Q : Pattern → Prop} {s s' s'' : Simulation} {id : BulletId} {b : Bullet}
  {shots : List Bullet} {Y : Finset TaskId}

theorem Advances.of_pool (h : s'.pool = s.pool) : s.Advances s' where
  grows := by
    rw [h]
    exact .refl _
  gone k hk := .inl (h ▸ hk)

theorem Advances.refl (s : Simulation) : s.Advances s := .of_pool rfl

theorem Advances.trans (h₁ : s.Advances s') (h₂ : s'.Advances s'') : s.Advances s'' where
  grows := h₁.grows.trans h₂.grows
  gone k hk := (h₁.gone k hk).elim (h₂.gone k) fun hd => .inr (hd.grows h₂.grows)

theorem Advances.of_adds (h : s.pool.Adds s'.pool shots) : s.Advances s' where
  grows := h.grows
  gone k hk := .inl (by rw [h.ids]; exact List.mem_append_left _ hk)

theorem Advances.issued (h : s.Advances s') (hi : s.pool.Issued id) : s'.pool.Issued id :=
  hi.grows h.gone h.grows

theorem orderly_init (capacity : Nat) (seed : UInt64) (rank : Float32) (cull : Option Bounds)
    (margin : Float32) : (init capacity seed rank cull margin).Orderly g Q where
  pool := Pool.sound_ofCapacity capacity
  seated _ h := absurd h List.not_mem_nil
  arena := Arena.sound_empty
  tended := by
    refine ⟨∅, .nil, ?_, rfl⟩
    intro id hc
    simp [init, Arena.contains] at hc
  stops _ _ _ _ h := by simp [init] at h

theorem Orderly.find (h : s.Orderly g Q) (hid : id ∈ s.pool.ids) : ∃ b, s.get? id = some b :=
  h.seated id hid

theorem Orderly.adds (h : s.Orderly g Q) (hp : s.pool.Adds s'.pool shots)
    (hr : s.tasks.Replaces s'.tasks ∅ Y) (ho : s'.tasks.Owned g Q shots Y)
    (hw : s'.tasks.NoWrap ∨ Y = ∅)
    (hn : ∀ name id e, .bulletStopped name id e ∈ s'.notices →
      .bulletStopped name id e ∈ s.notices) :
    s'.Orderly g Q where
  pool := hp.sound
  seated k hk := by
    rw [hp.ids] at hk
    rcases List.mem_append.1 hk with hk | hk
    · rw [Pool.get?_eq_of_slot? (hp.kept k hk)]
      exact h.seated k hk
    · obtain ⟨b, hb, rfl⟩ := List.mem_map.1 hk
      exact ⟨b, hp.added b hb⟩
  arena := hr.sound
  tended := by
    obtain ⟨X, hX⟩ := h.tended
    obtain ⟨Z, hZ⟩ := hX.replace [] shots s'.tasks fun W hW => by
      cases hW
      exact ⟨Y, hr, ho, hw⟩
    refine ⟨Z, hZ.perm ?_⟩
    rw [bullets, hp.bullets]
    exact List.perm_append_comm
  stops hg name id e hm := h.stops hg name id e (hn name id e hm)

theorem Orderly.create (h : s.Orderly g Q) (pos : Point) (direction speed : Float32) :
    (s.create pos direction speed).2.Orderly g Q ∧ s.Advances (s.create pos direction speed).2 := by
  rcases h.pool.create with ⟨_, he⟩ | ⟨id, p, _, he, hr⟩
  · simp only [Simulation.create, he]
    exact ⟨h, .refl s⟩
  · simp only [Simulation.create, he]
    have hp := hr.modify (f := fun b => { b with pos, direction, speed })
      (h.pool.get?_create he) fun _ => rfl
    refine ⟨h.adds hp (.refl h.arena ∅) (.single (.bare rfl fun _ => rfl)) (.inr rfl) ?_,
      .of_adds hp⟩
    exact fun _ _ _ hm => hm

section Spawn

theorem Orderly.activate {pool : Pool} {p : Pattern} (h : s.Orderly g Q)
    (hr : s.pool.Reserves pool b.id) (hb : b.pattern = some p) (hp : g → Q p ∧ p.Closed)
    (hw : (Simulation.activate { s with pool } p b).2.tasks.NoWrap) :
    (Simulation.activate { s with pool } p b).2.Orderly g Q ∧
      s.Advances (Simulation.activate { s with pool } p b).2 := by
  have hn : ∀ n ∈ p.topActions, g → p.Has n := fun _ hm hg => (hp hg).2.topActions hm
  unfold Simulation.activate at hw ⊢
  cases hbind : (⟨p, s.context.rank, b⟩ : Binder).bindRoots none [] p.topActions []
      ⟨s.tasks, s.context.random⟩ with
  | ok roots st =>
    simp only [hbind] at hw ⊢
    obtain ⟨trees, X, hrep, hh, hfit⟩ :=
      Binder.bindRoots_ok h.arena hbind (fun hg => (hp hg).2) hn
    have hprog : ({ b with tasks := roots } : Bullet).program = p := Bullet.program_of_some hb
    have hdrives : ({ b with tasks := roots } : Bullet).Drives g Q st.tasks X := by
      refine ⟨hh.spans, fun c hc => hh.contains hc, hprog ▸ hfit, ?_, ?_⟩
      · intro _ hnone
        rw [hb] at hnone
        cases hnone
      · intro hg q he
        rw [hb] at he
        cases he
        exact (hp hg).1
    have hadds := hr.place (b := { b with tasks := roots })
    exact ⟨h.adds hadds hrep (.single hdrives) (.inl hw) fun _ _ _ hm => hm, .of_adds hadds⟩
  | error e st =>
    simp only [hbind] at hw ⊢
    obtain ⟨hrep, _⟩ := Binder.bindRoots_error h.arena hbind (fun hg => (hp hg).2) hn
    refine ⟨h.adds hr.remove hrep .nil (.inr rfl) ?_, .of_adds hr.remove⟩
    intro name id e' hm
    simpa using hm

theorem Orderly.spawn {p : Pattern} (h : s.Orderly g Q) (hp : g → Q p ∧ p.Closed) (pos : Point)
    (hw : (s.spawn p pos).2.tasks.NoWrap) :
    (s.spawn p pos).2.Orderly g Q ∧ s.Advances (s.spawn p pos).2 := by
  unfold Simulation.spawn at hw ⊢
  split
  · exact ⟨h, .refl s⟩
  · rename_i htop
    simp only [htop] at hw
    rcases h.pool.create with ⟨_, he⟩ | ⟨id, pool, _, he, hr⟩
    · simp only [he]
      exact ⟨⟨h.pool, h.seated, h.arena, h.tended, h.stops⟩, .of_pool rfl⟩
    · simp only [he] at hw ⊢
      exact h.activate (b := { Bullet.atRest id with pos, pattern := some p }) hr.take rfl hp hw

end Spawn

section Vanish

/-- Some bullets are recycled, and all others are left alone. -/
structure Recycles (s s' : Simulation) (gone : List BulletId) : Prop where
  ids : s'.pool.ids = s.pool.ids.filter (· ∉ gone)
  kept : ∀ k, k ∉ gone → s'.get? k = s.get? k
  frame : s'.frame = s.frame
  recycled : s'.context.stats.recycled = s.context.stats.recycled + gone.length
  advances : s.Advances s'

theorem Orderly.vanish (h : s.Orderly g Q) (hid : id ∈ s.pool.ids) :
    (s.vanish id).2.Orderly g Q ∧ s.Recycles (s.vanish id).2 [id] := by
  obtain ⟨b, hb⟩ := h.find hid
  have hcur := h.pool.current id hid
  have hrem : s.pool.remove id = (some b, (s.pool.remove id).2) := by
    rw [Pool.remove_of_current hcur]
    exact congrArg (·, _) hb
  have he : (s.vanish id).2 = { s with
      pool := (s.pool.remove id).2
      tasks := s.tasks.releaseAll b.tasks
      context := s.context.countRecycled } := by
    unfold Simulation.vanish
    rw [hrem]
  obtain ⟨X, hX⟩ := h.tended
  obtain ⟨Z, hZ⟩ := (hX.perm (h.pool.bullets_remove hb)).replace [b] []
    (s.tasks.releaseAll b.tasks) fun W hW => by
      cases hW with
      | cons hd hs _ =>
        cases hs
        rw [Finset.union_empty]
        exact ⟨∅, hd.spans.releaseAll h.arena, .nil, .inr rfl⟩
  obtain ⟨Y, _, hd⟩ := hX.owned.drives (Pool.mem_bullets.2 ⟨id, hid, hb⟩)
  rw [he]
  refine ⟨⟨h.pool.remove hid, ?_, (hd.spans.releaseAll h.arena).sound, ⟨Z, hZ⟩, h.stops⟩, ?_, ?_,
    rfl, rfl, Pool.grows_remove, ?_⟩
  · intro k hk
    rw [h.pool.ids_remove hid, List.mem_filter] at hk
    rw [Pool.get?_remove, if_neg (by simpa using hk.2)]
    exact h.seated k hk.1
  · rw [h.pool.ids_remove hid]
    exact List.filter_congr fun k _ => by simp [bne, BEq.beq]
  · intro k hk
    exact Pool.get?_remove.trans (if_neg (by simpa using hk))
  · intro k hk
    by_cases hki : k = id
    · rw [hki]
      exact .inr (h.pool.isDead_remove hid)
    · left
      rw [h.pool.ids_remove hid]
      simpa using ⟨hk, hki⟩

theorem Recycles.trans {gone more : List BulletId} (h₁ : s.Recycles s' gone)
    (h₂ : s'.Recycles s'' more) : s.Recycles s'' (gone ++ more) where
  ids := by
    rw [h₂.ids, h₁.ids, List.filter_filter]
    exact List.filter_congr fun k _ => by simp [Bool.and_comm]
  kept k hk := by
    rw [List.mem_append, not_or] at hk
    rw [h₂.kept k hk.2, h₁.kept k hk.1]
  frame := h₂.frame.trans h₁.frame
  recycled := by rw [h₂.recycled, h₁.recycled, List.length_append, Nat.add_assoc]
  advances := h₁.advances.trans h₂.advances

theorem Orderly.vanishAll {gone : List BulletId} (h : s.Orderly g Q) (hn : gone.Nodup)
    (hm : ∀ id ∈ gone, id ∈ s.pool.ids) :
    (s.vanishAll gone).Orderly g Q ∧ s.Recycles (s.vanishAll gone) gone := by
  induction gone generalizing s with
  | nil => exact ⟨h, by simp [Simulation.vanishAll], fun _ _ => rfl, rfl, rfl, .refl s⟩
  | cons id gone ih =>
    obtain ⟨hid, hn⟩ := List.nodup_cons.1 hn
    obtain ⟨ho, hr⟩ := h.vanish (hm id List.mem_cons_self)
    obtain ⟨ho', hr'⟩ := ih ho hn fun k hk => by
      rw [hr.ids]
      have hne : k ≠ id := fun he => hid (he ▸ hk)
      simpa using ⟨hm k (List.mem_cons_of_mem _ hk), hne⟩
    exact ⟨ho', hr.trans hr'⟩

theorem vanish_of_dead (hd : s.pool.store.IsDead id) (hw : s.pool.store.NoWrap) :
    (s.vanish id).2 = s := by
  have hc : s.pool.store.isCurrent id = false := by
    rw [Store.isCurrent, hd.slot? hw]
    rfl
  unfold Simulation.vanish
  rw [Pool.remove_of_not_current hc]

/-- A handle that was given out is of a live bullet, or vanishing does nothing. -/
theorem Orderly.vanish_issued (h : s.Orderly g Q) (hi : s.pool.Issued id)
    (hw : s.pool.store.NoWrap) :
    (s.vanish id).2.Orderly g Q ∧ s.Advances (s.vanish id).2 := by
  rcases hi with hid | hd
  · obtain ⟨ho, hr⟩ := h.vanish hid
    exact ⟨ho, hr.advances⟩
  · rw [vanish_of_dead hd hw]
    exact ⟨h, .refl s⟩

theorem Orderly.clear (h : s.Orderly g Q) : s.clear.Orderly g Q ∧ s.Advances s.clear := by
  obtain ⟨ho, hr⟩ := h.vanishAll h.pool.nodup fun _ hid => hid
  exact ⟨ho, hr.advances⟩

theorem Orderly.evict (h : s.Orderly g Q) (excess : Nat) :
    (evict excess s).Orderly g Q ∧ s.Advances (Simulation.evict excess s) := by
  induction excess generalizing s with
  | zero => exact ⟨h, .refl s⟩
  | succ excess ih =>
    rw [Simulation.evict]
    cases hi : s.pool.idAt? 0 with
    | none => exact ⟨h, .refl s⟩
    | some id =>
      have hid : id ∈ s.pool.ids := Array.mem_toList_iff.2 (Array.mem_of_getElem? hi)
      obtain ⟨ho, hr⟩ := h.vanish hid
      obtain ⟨ho', ha⟩ := ih ho
      exact ⟨ho', hr.advances.trans ha⟩

theorem Orderly.resize (h : s.Orderly g Q) (capacity : Nat) :
    ({ s with pool := s.pool.setCapacity capacity } : Simulation).Orderly g Q :=
  ⟨⟨h.pool.store, h.pool.nodup, h.pool.current, h.pool.reserved, h.pool.listed⟩, h.seated,
    h.arena, h.tended, h.stops⟩

theorem Orderly.setCapacity (h : s.Orderly g Q) (capacity : Nat) :
    (s.setCapacity capacity).Orderly g Q ∧ s.Advances (s.setCapacity capacity) := by
  obtain ⟨ho', ha⟩ := (h.resize capacity).evict (s.size - capacity)
  exact ⟨ho', ha.grows, ha.gone⟩

end Vanish

theorem Orderly.modifyBullet {f : Bullet → Bullet} (h : s.Orderly g Q)
    (hid : ∀ b, (f b).id = b.id) (ht : ∀ b, (f b).tasks = b.tasks)
    (hp : g → ∀ b, (f b).pattern = b.pattern) (hw : s.tasks.NoWrap) :
    (s.modifyBullet id f).Orderly g Q ∧ s.Advances (s.modifyBullet id f) := by
  have ha : s.Advances (s.modifyBullet id f) := ⟨Store.grows_modify, fun k hk => .inl hk⟩
  have hpool : (s.modifyBullet id f).pool.Sound := h.pool.modify hid
  obtain ⟨X, hX⟩ := h.tended
  cases hb : s.pool.get? id with
  | none =>
    have hget (k : BulletId) : (s.modifyBullet id f).pool.get? k = s.pool.get? k :=
      Pool.get?_modify_of_none hb
    have hbs : (s.modifyBullet id f).bullets = s.bullets :=
      List.filterMap_congr fun k _ => hget k
    refine ⟨⟨hpool, ?_, h.arena, ⟨X, hbs ▸ hX⟩, h.stops⟩, ha⟩
    intro k hk
    rw [hget]
    exact h.seated k hk
  | some b =>
    obtain ⟨Z, hZ⟩ := (hX.perm (h.pool.bullets_take hb)).replace [b] [f b]
      s.tasks fun W hW => by
        cases hW with
        | cons hd hs _ =>
          cases hs
          rw [Finset.union_empty]
          exact ⟨_, .refl h.arena _, .single (hd.congr (ht b) fun hg => hp hg b), .inl hw⟩
    refine ⟨⟨hpool, ?_, h.arena, ⟨Z, hZ.perm (h.pool.bullets_modify hb).symm⟩, h.stops⟩, ha⟩
    intro k hk
    obtain ⟨c, hc⟩ := h.seated k hk
    have hget : (s.modifyBullet id f).pool.get? k = _ := Pool.get?_modify
    rw [hget]
    split
    · exact ⟨f b, by rw [hb]; rfl⟩
    · exact ⟨c, hc⟩

end Barrage.Simulation

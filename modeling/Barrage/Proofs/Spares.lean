import Barrage.Proofs.Host
import Barrage.Proofs.PoolHistory
import Barrage.Proofs.Shows

namespace Barrage.Simulation

/-- The bullet of a handle is left as it is, with the trees that its tasks show. -/
structure Spares (s s' : Simulation) (k : BulletId) : Prop where
  get? : s'.get? k = s.get? k
  shows : ∀ b ws, s.get? k = some b → s.tasks.Shows b.tasks ws → s'.tasks.Shows b.tasks ws

/-- Bullets were taken away and none were added. -/
def Thins (s s' : Simulation) : Prop := ∃ keep, s'.pool.ids = s.pool.ids.filter keep

variable {g : Prop} {Q : Pattern → Prop} {s s' s'' : Simulation} {id k : BulletId} {b b' : Bullet}
  {ids : List BulletId} {c : HostCall}

section Laws

theorem Spares.still (hg : s'.get? k = s.get? k) (ht : s'.tasks = s.tasks) : s.Spares s' k :=
  ⟨hg, fun _ _ _ hs => ht ▸ hs⟩

theorem Spares.refl (s : Simulation) (k : BulletId) : s.Spares s k := .still rfl rfl

theorem Spares.trans (h₁ : s.Spares s' k) (h₂ : s'.Spares s'' k) : s.Spares s'' k where
  get? := h₂.get?.trans h₁.get?
  shows b ws hb hs := h₂.shows b ws (h₁.get?.trans hb) (h₁.shows b ws hb hs)

theorem Thins.of_eq (h : s'.pool.ids = s.pool.ids) : s.Thins s' :=
  ⟨fun _ => true, by rw [h, List.filter_true]⟩

theorem Thins.trans (h₁ : s.Thins s') (h₂ : s'.Thins s'') : s.Thins s'' := by
  obtain ⟨keep, hk⟩ := h₁
  obtain ⟨keep', hk'⟩ := h₂
  exact ⟨_, by rw [hk', hk, List.filter_filter]⟩

/-- Bullets that stay keep their order. -/
theorem Thins.sublist (h : s.Thins s') (hs : ids.Sublist s.pool.ids)
    (hm : ∀ k ∈ ids, k ∈ s'.pool.ids) : ids.Sublist s'.pool.ids := by
  obtain ⟨keep, hk⟩ := h
  have hself : ids.filter keep = ids := by
    apply List.filter_eq_self.2
    intro k hmem
    have hin := hm k hmem
    rw [hk] at hin
    exact (List.mem_filter.1 hin).2
  rw [hk, ← hself]
  exact hs.filter keep

end Laws

section Vanish

/-- Two bullets have no task in common. -/
theorem Orderly.apart (h : s.Orderly g Q) (hb : s.get? b.id = some b) (hb' : s.get? k = some b')
    (hne : k ≠ b.id) :
    ∃ X Y, s.tasks.Spans b.tasks X ∧ s.tasks.Spans b'.tasks Y ∧ Disjoint X Y := by
  obtain ⟨Z, hZ⟩ := h.tended
  have hm : b' ∈ (s.pool.take b.id).2.bullets := by
    refine Pool.mem_bullets.2 ⟨k, (h.pool.listed k b' hb').1, ?_⟩
    rw [Pool.get?_take, if_neg hne]
    exact hb'
  cases hZ.owned.perm (h.pool.bullets_take hb) with
  | cons hd hs hdis =>
    obtain ⟨Y, hsub, hd'⟩ := hs.drives hm
    exact ⟨_, Y, hd.spans, hd'.spans, hdis.mono_right hsub⟩

theorem Orderly.spares_vanish (h : s.Orderly g Q) (hid : id ∈ s.pool.ids) (hne : k ≠ id) :
    s.Spares (s.vanish id).2 k where
  get? := (h.vanish hid).2.kept k (by simpa using hne)
  shows b' ws hb' hs := by
    obtain ⟨b, hb⟩ := h.find hid
    obtain rfl : b.id = id := (h.pool.listed id b hb).2
    have hrem : s.pool.remove b.id = (some b, (s.pool.remove b.id).2) := by
      rw [Pool.remove_of_current (h.pool.current _ hid)]
      exact congrArg (·, _) hb
    have htasks : (s.vanish b.id).2.tasks = s.tasks.releaseAll b.tasks := by
      unfold Simulation.vanish
      rw [hrem]
    obtain ⟨X, Y, hX, hY, hd⟩ := h.apart hb hb' hne
    rw [htasks]
    exact hs.outlive hY (hX.releaseAll h.arena) hd

theorem get?_vanish_self : (s.vanish id).2.get? id = none := by
  rw [Simulation.get?, Pool.pool_vanish, Pool.get?_remove, if_pos rfl]

theorem thins_vanish (s : Simulation) (id : BulletId) : s.Thins (s.vanish id).2 := by
  cases hc : s.pool.store.isCurrent id with
  | true =>
    refine ⟨(· != id), ?_⟩
    rw [Pool.pool_vanish, Pool.remove_of_current hc, Pool.ids, Pool.ids, Array.toList_filter]
  | false =>
    apply Thins.of_eq
    rw [Pool.pool_vanish, Pool.remove_of_not_current hc]

theorem thins_vanishAll (s : Simulation) (gone : List BulletId) : s.Thins (s.vanishAll gone) := by
  induction gone generalizing s with
  | nil => exact .of_eq rfl
  | cons id gone ih => exact (thins_vanish s id).trans (ih _)

theorem thins_evict (excess : Nat) (s : Simulation) : s.Thins (evict excess s) := by
  induction excess generalizing s with
  | zero => exact .of_eq rfl
  | succ excess ih =>
    rw [Simulation.evict]
    cases s.pool.idAt? 0 with
    | none => exact .of_eq rfl
    | some id => exact (thins_vanish s id).trans (ih _)

/-- A bullet that is still there was not vanished. -/
theorem Orderly.spares_vanishAll {gone : List BulletId} (h : s.Orderly g Q) (hn : gone.Nodup)
    (hm : ∀ id ∈ gone, id ∈ s.pool.ids) (hk : k ∉ gone) : s.Spares (s.vanishAll gone) k := by
  induction gone generalizing s with
  | nil => exact .refl s k
  | cons id gone ih =>
    obtain ⟨hid, hn⟩ := List.nodup_cons.1 hn
    rw [List.mem_cons, not_or] at hk
    obtain ⟨hne, hk⟩ := hk
    have hmem := hm id List.mem_cons_self
    obtain ⟨ho, hr⟩ := h.vanish hmem
    apply (h.spares_vanish hmem hne).trans
    apply ih ho hn _ hk
    intro k hk
    rw [hr.ids]
    have hne : k ≠ id := fun he => hid (he ▸ hk)
    simpa using ⟨hm k (List.mem_cons_of_mem _ hk), hne⟩

theorem Orderly.spares_evict (h : s.Orderly g Q) (excess : Nat)
    (hb : (Simulation.evict excess s).get? k = some b) :
    s.Spares (Simulation.evict excess s) k := by
  induction excess generalizing s with
  | zero => exact .refl s k
  | succ excess ih =>
    rw [Simulation.evict] at hb ⊢
    cases hi : s.pool.idAt? 0 with
    | none => exact .refl s k
    | some id =>
      rw [hi] at hb
      have hid : id ∈ s.pool.ids := Array.mem_toList_iff.2 (Array.mem_of_getElem? hi)
      have hrest := ih (h.vanish hid).1 hb
      have hne : k ≠ id := by
        rintro rfl
        rw [hrest.get?, get?_vanish_self] at hb
        cases hb
      exact (h.spares_vanish hid hne).trans hrest

end Vanish

section Spawn

/-- What starting a pattern does: nothing, or a slot is taken for an emitter, whose tasks are bound,
and given back if they cannot be. -/
inductive Spawns (s : Simulation) (p : Pattern) (pos : Point) :
    Except PatternError (Option BulletId) × Simulation → Prop where
  | refuses {x : Except PatternError (Option BulletId)} {context : Context}
      (hx : ∀ id, x ≠ .ok (some id)) :
      Spawns s p pos (x, { s with context })
  | fails {e : PatternError} {pool : Pool} {tasks : Arena} {context : Context}
      {notices : Array Notice} (hp : s.pool.Adds pool []) (hr : s.tasks.Replaces tasks ∅ ∅) :
      Spawns s p pos (.error e, { s with pool, tasks, context, notices })
  | starts {emitter : Bullet} {pool : Pool} {tasks : Arena} {r : Random} {trees : List TaskTree}
      {X : Finset TaskId} (hp : s.pool.Adds pool [emitter]) (hr : s.tasks.Replaces tasks ∅ X)
      (hh : tasks.Holds none emitter.tasks trees X) (hm : emitter.motion = .rest pos)
      (hb : emitter.pattern = some p)
      (hx : Binder.expandChildren ((⟨p, s.context.rank, (Motion.rest pos).bullet⟩ :
        Binder).expandNode (maxNestDepth + 1)) [] p.topActions s.context.random = .ok trees r) :
      Spawns s p pos (.ok (some emitter.id),
        { s with pool, tasks, context := { s.context with random := r } })

theorem Orderly.spawns (h : s.Orderly g Q) (p : Pattern) (pos : Point) :
    s.Spawns p pos (s.spawn p pos) := by
  unfold Simulation.spawn
  split
  · exact .refuses nofun
  · rcases h.pool.create with ⟨_, he⟩ | ⟨id, pool, _, he, hr⟩
    · simp only [he]
      exact .refuses nofun
    · simp only [he]
      have hbind : Binder.BindsRoots none [] ∅ ⟨s.tasks, s.context.random⟩
          (Binder.bindRoots ⟨p, s.context.rank, { Bullet.atRest id with pos, pattern := some p }⟩
            none [] p.topActions [] _) _ := Binder.binds_roots p.topActions h.arena .nil
      rw [Binder.expandNode_motion] at hbind
      unfold Simulation.activate
      generalize hx : Binder.expandChildren _ _ _ _ = x at hbind
      simp only
      generalize Binder.bindRoots _ _ _ _ _ _ = bound at hbind ⊢
      cases hbind with
      | error hrep => exact .fails hr.take.remove hrep
      | @ok roots _ _ _ _ hrep hh =>
        have hreserve : s.pool.Reserves (pool.take id).2
            ({ Bullet.atRest id with pos, pattern := some p, tasks := roots } : Bullet).id :=
          hr.take
        have hspawn : s.Spawns p pos _ := .starts hreserve.place hrep hh rfl rfl hx
        exact hspawn

end Spawn

section Perform

theorem Orderly.spans (h : s.Orderly g Q) (hb : s.get? k = some b) :
    ∃ X, s.tasks.Spans b.tasks X := by
  obtain ⟨Z, hZ⟩ := h.tended
  obtain ⟨X, _, hd⟩ := hZ.owned.drives (Pool.mem_bullets.2 ⟨k, (h.pool.listed k b hb).1, hb⟩)
  exact ⟨X, hd.spans⟩

theorem Orderly.spares_adds {shots : List Bullet} {Y : Finset TaskId} (h : s.Orderly g Q)
    (hp : s.pool.Adds s'.pool shots) (hr : s.tasks.Replaces s'.tasks ∅ Y)
    (hk : k ∈ s.pool.ids) (hw : s'.tasks.NoWrap) : s.Spares s' k where
  get? := Pool.get?_eq_of_slot? (hp.kept k hk)
  shows b ws hb hs := by
    obtain ⟨X, hX⟩ := h.spans hb
    exact hs.apart hX hr (Finset.disjoint_empty_left X) hw

/-- A call other than a frame leaves the bullets alone that it leaves as they are. -/
theorem Orderly.spares_perform {issued : List BulletId} (h : s.Orderly g Q) (hw : s.NoWrap)
    (hi : ∀ id ∈ issued, s.pool.Issued id) (hl : c.Lawful issued) (hu : ∀ dt, c ≠ .update dt)
    (hb : s.get? k = some b) (hk : (c.perform s).get? k = s.get? k)
    (hw' : (c.perform s).tasks.NoWrap) : s.Spares (c.perform s) k := by
  have hid : k ∈ s.pool.ids := (h.pool.listed k b hb).1
  have hb' := hk.trans hb
  cases c with
  | create pos direction speed =>
    apply Spares.still hk
    simp only [HostCall.perform, Simulation.create]
    split <;> rfl
  | spawn p pos =>
    have hspawn := h.spawns p pos
    simp only [HostCall.perform] at hw' ⊢
    generalize s.spawn p pos = x at hspawn hw' ⊢
    cases hspawn with
    | refuses => exact .still rfl rfl
    | fails hp hr => exact h.spares_adds hp hr hid hw'
    | starts hp hr => exact h.spares_adds hp hr hid hw'
  | update dt => exact absurd rfl (hu dt)
  | vanish id =>
    rcases hi id hl with hid | hd
    · apply h.spares_vanish hid
      rintro rfl
      rw [HostCall.perform, get?_vanish_self] at hb'
      cases hb'
    · rw [HostCall.perform, vanish_of_dead hd hw.1]
      exact .refl s k
  | clear =>
    obtain ⟨ho, hr⟩ := h.vanishAll h.pool.nodup fun _ hid => hid
    have hin := (ho.pool.listed k b hb').1
    rw [hr.ids] at hin
    simp [hid] at hin
  | setCapacity capacity =>
    have hresize : s.Spares { s with pool := s.pool.setCapacity capacity } k := .still rfl rfl
    exact hresize.trans ((h.resize capacity).spares_evict _ hb')
  | setRank rank => exact .still rfl rfl
  | setTarget target => exact .still rfl rfl
  | edit id f => exact .still hk rfl
  | collect => exact .still rfl rfl

/-- The bullets that a call leaves keep their order. -/
theorem Orderly.sublist_perform (h : s.Orderly g Q) (hu : ∀ dt, c ≠ .update dt)
    (hs : ids.Sublist s.pool.ids) (hm : ∀ k ∈ ids, k ∈ (c.perform s).pool.ids) :
    ids.Sublist (c.perform s).pool.ids := by
  have added {shots : List Bullet} (hp : s.pool.Adds (c.perform s).pool shots) :
      ids.Sublist (c.perform s).pool.ids := by
    rw [hp.ids]
    exact hs.trans (List.sublist_append_left _ _)
  cases c with
  | create pos direction speed =>
    rcases h.pool.create with ⟨_, he⟩ | ⟨id, pool, _, he, hr⟩
    · simp only [HostCall.perform, Simulation.create, he]
      exact hs
    · simp only [HostCall.perform, Simulation.create, he]
      have hids : (pool.modify id fun b => { b with pos, direction, speed }).ids = _ := hr.ids
      rw [hids]
      exact hs.trans (List.sublist_append_left _ _)
  | spawn p pos =>
    have hspawn := h.spawns p pos
    simp only [HostCall.perform] at hm added ⊢
    generalize s.spawn p pos = x at hspawn hm added ⊢
    cases hspawn with
    | refuses => exact hs
    | fails hp => exact added hp
    | starts hp => exact added hp
  | update dt => exact absurd rfl (hu dt)
  | vanish id => exact (thins_vanish s id).sublist hs hm
  | clear => exact (thins_vanishAll s _).sublist hs hm
  | setCapacity capacity =>
    exact (thins_evict _ { s with pool := s.pool.setCapacity capacity }).sublist hs hm
  | setRank rank => exact hs
  | setTarget target => exact hs
  | edit id f => exact hs
  | collect => exact hs

end Perform

end Barrage.Simulation

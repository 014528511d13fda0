import Barrage.Proofs.Sequence
import Barrage.Proofs.Spares

namespace Barrage

namespace Simulation

variable {g : Prop} {Q : Pattern → Prop} {s s' s'' : Simulation} {dt : Float32}
  {shots : List Bullet} {arrived gone more lost : List BulletId}

section Trades

/-- From `s` to `s'`, these bullets have come and these old ones have gone, which was counted. -/
structure Trades (s s' : Simulation) (arrived gone : List BulletId) : Prop where
  ids : s'.pool.ids = s.pool.ids.filter (· ∉ gone) ++ arrived
  fresh : ∀ k ∈ arrived, k ∉ s.pool.ids
  nodup : gone.Nodup
  live : ∀ k ∈ gone, k ∈ s.pool.ids
  recycled : s'.context.stats.recycled = s.context.stats.recycled + gone.length

theorem Trades.still (hi : s'.pool.ids = s.pool.ids)
    (hr : s'.context.stats.recycled = s.context.stats.recycled) : Trades s s' [] [] where
  ids := by simp [hi]
  fresh := nofun
  nodup := .nil
  live := nofun
  recycled := hr

theorem Trades.adds (hi : s'.pool.ids = s.pool.ids ++ arrived) (hs : s'.pool.Sound)
    (hr : s'.context.stats.recycled = s.context.stats.recycled) : Trades s s' arrived [] where
  ids := by simp [hi]
  fresh k hk hold := by
    have hnodup := hs.nodup
    rw [hi] at hnodup
    exact (List.nodup_append.1 hnodup).2.2 k hold k hk rfl
  nodup := .nil
  live := nofun
  recycled := hr

theorem Recycles.trades (h : s.Recycles s' gone) (hn : gone.Nodup)
    (hm : ∀ k ∈ gone, k ∈ s.pool.ids) : Trades s s' [] gone where
  ids := by rw [h.ids, List.append_nil]
  fresh := nofun
  nodup := hn
  live := hm
  recycled := h.recycled

theorem Trades.mem (h : Trades s s' arrived gone) {k : BulletId} (hk : k ∈ s.pool.ids) :
    k ∈ s'.pool.ids ↔ k ∉ gone := by
  rw [h.ids, List.mem_append, List.mem_filter, decide_eq_true_iff]
  constructor
  · rintro (⟨_, hg⟩ | ha)
    · exact hg
    · exact absurd hk (h.fresh k ha)
  · exact fun hg => .inl ⟨hk, hg⟩

theorem removeAll_eq_filter (ids gone : List BulletId) :
    ids.removeAll gone = ids.filter (· ∉ gone) := by
  apply List.filter_congr
  intro k _
  simp

/-- The bullets that have come are those that were not there before. -/
theorem Trades.arrived_eq (h : Trades s s' arrived gone) :
    s'.pool.ids.removeAll s.pool.ids = arrived := by
  have hold : (s.pool.ids.filter (· ∉ gone)).filter (· ∉ s.pool.ids) = [] := by
    rw [List.filter_eq_nil_iff]
    intro k hk
    simpa using (List.mem_filter.1 hk).1
  have hnew : arrived.filter (· ∉ s.pool.ids) = arrived := by
    rw [List.filter_eq_self]
    intro k hk
    exact decide_eq_true (h.fresh k hk)
  rw [removeAll_eq_filter, h.ids, List.filter_append, hold, hnew, List.nil_append]

theorem Trades.taken (h : Trades s s' arrived gone) (hs : s.pool.ids.Nodup) :
    (s.pool.ids.filter (· ∈ gone)).Perm gone := by
  rw [List.perm_ext_iff_of_nodup (hs.filter _) h.nodup]
  intro k
  rw [List.mem_filter, decide_eq_true_iff]
  exact and_iff_right_of_imp (h.live k)

/-- The bullets that have gone are those that are not there any more. -/
theorem Trades.gone_perm (h : Trades s s' arrived gone) (hs : s.pool.ids.Nodup) :
    (s.pool.ids.removeAll s'.pool.ids).Perm gone := by
  have hsame : s.pool.ids.filter (· ∉ s'.pool.ids) = s.pool.ids.filter (· ∈ gone) := by
    apply List.filter_congr
    intro k hk
    rw [decide_eq_decide, h.mem hk, not_not]
  rw [removeAll_eq_filter, hsame]
  exact h.taken hs

theorem Trades.perm (h : Trades s s' arrived gone) (hs : s.pool.ids.Nodup) :
    (s.pool.ids ++ arrived).Perm (s'.pool.ids ++ gone) := by
  have hsplit := List.filter_append_perm (fun k => decide (k ∉ gone)) s.pool.ids
  simp only [decide_not, Bool.not_not] at hsplit
  have hparts := ((h.taken hs).append_left _).symm.trans hsplit
  have hswap : (gone ++ arrived).Perm (arrived ++ gone) := List.perm_append_comm
  rw [h.ids, List.append_assoc]
  apply (hparts.symm.append_right arrived).trans
  rw [List.append_assoc]
  simp only [decide_not]
  exact hswap.append_left _

end Trades

section Calls

theorem Orderly.trades_create (h : s.Orderly g Q) (pos : Point) (direction speed : Float32) :
    Trades s (s.create pos direction speed).2 (s.create pos direction speed).1.toList [] := by
  rcases h.pool.create with ⟨_, he⟩ | ⟨id, p, _, he, hr⟩
  · simp only [Simulation.create, he]
    exact .still rfl rfl
  · simp only [Simulation.create, he]
    have hp := hr.modify (f := fun b => { b with pos, direction, speed })
      (h.pool.get?_create he) fun _ => rfl
    exact .adds hp.ids hp.sound rfl

theorem recycled_spawn (s : Simulation) (p : Pattern) (pos : Point) :
    (s.spawn p pos).2.context.stats.recycled = s.context.stats.recycled := by
  unfold spawn
  split
  · rfl
  · split
    · rfl
    · simp only [activate]
      split <;> rfl

/-- A bullet comes with a pattern that is started, and none with one that is not. -/
theorem Orderly.trades_spawn (h : s.Orderly g Q) (p : Pattern) (pos : Point) :
    (∃ id, (s.spawn p pos).1 = .ok (some id) ∧ Trades s (s.spawn p pos).2 [id] []) ∨
      (∀ id, (s.spawn p pos).1 ≠ .ok (some id)) ∧ Trades s (s.spawn p pos).2 [] [] := by
  have hr := recycled_spawn s p pos
  have hspawn := h.spawns p pos
  generalize s.spawn p pos = x at hspawn hr ⊢
  cases hspawn with
  | refuses hx => exact .inr ⟨hx, .still rfl hr⟩
  | fails hp => exact .inr ⟨nofun, .adds hp.ids hp.sound hr⟩
  | starts hp => exact .inl ⟨_, rfl, .adds hp.ids hp.sound hr⟩

theorem Orderly.trades_vanishAll (h : s.Orderly g Q) (hn : gone.Nodup)
    (hm : ∀ k ∈ gone, k ∈ s.pool.ids) : Trades s (s.vanishAll gone) [] gone :=
  (h.vanishAll hn hm).2.trades hn hm

/-- Bullets are evicted from the oldest on. -/
theorem Orderly.evict_eq (h : s.Orderly g Q) (excess : Nat) :
    Simulation.evict excess s = s.vanishAll (s.pool.ids.take excess) := by
  induction excess generalizing s with
  | zero => rw [List.take_zero]; rfl
  | succ excess ih =>
    have hhead : s.pool.idAt? 0 = s.pool.ids[0]? := Array.getElem?_toList.symm
    have hnodup := h.pool.nodup
    rw [Simulation.evict, hhead]
    cases hi : s.pool.ids with
    | nil => rfl
    | cons id ids =>
      rw [hi, List.nodup_cons] at hnodup
      obtain ⟨ho, hr⟩ := h.vanish (hi ▸ List.mem_cons_self)
      have hrest : (s.vanish id).2.pool.ids = ids := by
        rw [hr.ids, hi, List.filter_cons_of_neg (by simp), List.filter_eq_self]
        intro k hk
        simpa using ne_of_mem_of_not_mem hk hnodup.1
      rw [List.getElem?_cons_zero, List.take_succ_cons]
      simp only
      rw [ih ho, hrest]
      rfl

theorem Orderly.trades_setCapacity (h : s.Orderly g Q) (capacity : Nat) :
    ∃ gone, Trades s (s.setCapacity capacity) [] gone := by
  have ho := h.resize capacity
  have hsub : (s.pool.ids.take (s.size - capacity)).Sublist s.pool.ids := List.take_sublist _ _
  have ht := ho.trades_vanishAll (hsub.nodup h.pool.nodup) fun k hk => hsub.subset hk
  rw [Simulation.setCapacity, ho.evict_eq]
  exact ⟨_, ht.ids, ht.fresh, ht.nodup, ht.live, ht.recycled⟩

theorem recycled_tickAll (scale : Float32) (ids : List BulletId) (s : Simulation) :
    (s.tickAll scale ids).context.stats.recycled = s.context.stats.recycled := by
  induction ids generalizing s with
  | nil => rfl
  | cons id ids ih => exact (ih _).trans (context_tick s scale id).recycled

theorem Orderly.launches (h : s.Orderly g Q) (hQ : g → ∀ p, Q p → p.Closed)
    (hw : (s.update dt).tasks.NoWrap) :
    ∃ shots, Launches s.pool.ids shots (s.ticked dt).pool ∧
      shots.length = (s.firings dt).length := by
  have hloop : Simulation.tickFrom (dt * referenceFps) s.size 0 { s with frame := s.frame + 1 } =
      s.ticked dt :=
    h.begin.tickFrom hQ [] s.pool.ids [] (by simp) ((grows_vanishAll _).noWrap hw)
  obtain ⟨shots, hl, hf⟩ := launches_tickFrom h.pool h.seated dt
  rw [hloop] at hl
  exact ⟨shots, hl, hf.length_eq⟩

/-- In a frame come the bullets that are fired, and those go that have vanished. -/
theorem Orderly.trades_update (h : s.Orderly g Q) (hQ : g → ∀ p, Q p → p.Closed)
    (hw : (s.update dt).tasks.NoWrap) :
    ∃ arrived gone, Trades s (s.update dt) arrived gone ∧
      arrived.length = (s.firings dt).length := by
  obtain ⟨he, hw'⟩ := h.update_eq hQ hw
  obtain ⟨calls, ht⟩ := h.trace hQ hw'
  obtain ⟨_, hf⟩ := h.framed hQ hw' ht
  have hr := hf.orderly.sweep.2
  have hsub := hf.orderly.vanished_sublist
  obtain ⟨shots, hl, hlength⟩ := h.launches hQ hw
  have hfresh (k) (hk : k ∈ shots.map Bullet.id) :
      k ∉ ((s.ticked dt).bullets.filter Bullet.vanished).map Bullet.id := by
    obtain ⟨shot, hs, rfl⟩ := List.mem_map.1 hk
    have hget : (s.ticked dt).get? shot.id = some shot := hl.there shot hs
    rw [mem_vanished hl.sound, isVanished, hget]
    simpa using hl.fresh shot hs
  have hkeep := List.filter_eq_self.2 fun k hk => decide_eq_true (hfresh k hk)
  have hadds : Trades s (s.ticked dt) (shots.map Bullet.id) [] :=
    .adds hl.ids hl.sound (recycled_tickAll _ _ _)
  refine ⟨shots.map Bullet.id, _, ⟨?_, hadds.fresh, hsub.nodup hl.sound.nodup, ?_, ?_⟩, ?_⟩
  · rw [he, hr.ids, hl.ids, List.filter_append, hkeep]
  · intro k hk
    have hin := hsub.subset hk
    rw [hl.ids] at hin
    exact (List.mem_append.1 hin).elim id fun hs => absurd hk (hfresh k hs)
  · rw [he, hr.recycled, hadds.recycled]
    rfl
  · rw [List.length_map, hlength]

end Calls

section Balances

/-- From `s` to `s'`, whatever has come is still there or has gone, each bullet once and for good,
and what has gone was counted. -/
structure Balances (s s' : Simulation) (arrived gone : List BulletId) : Prop where
  perm : (s.pool.ids ++ arrived).Perm (s'.pool.ids ++ gone)
  nodup : gone.Nodup
  undead : ∀ k ∈ gone, ¬ s.pool.store.IsDead k
  dead : ∀ k ∈ gone, s'.pool.store.IsDead k
  recycled : s'.context.stats.recycled = s.context.stats.recycled + gone.length
  grows : s.pool.store.Grows s'.pool.store

theorem Balances.refl (s : Simulation) : Balances s s [] [] where
  perm := .refl _
  nodup := .nil
  undead := nofun
  dead := nofun
  recycled := rfl
  grows := .refl _

theorem Balances.trans (h₁ : Balances s s' arrived gone) (h₂ : Balances s' s'' more lost) :
    Balances s s'' (arrived ++ more) (gone ++ lost) where
  perm := by
    have hlater : (s'.pool.ids ++ more ++ gone).Perm (s''.pool.ids ++ lost ++ gone) :=
      h₂.perm.append_right gone
    have hearlier : (s.pool.ids ++ (arrived ++ more)).Perm (s'.pool.ids ++ gone ++ more) := by
      rw [← List.append_assoc]
      exact h₁.perm.append_right more
    apply hearlier.trans
    rw [List.append_assoc]
    apply (List.perm_append_comm.append_left _).trans
    rw [← List.append_assoc]
    apply hlater.trans
    rw [List.append_assoc]
    exact List.perm_append_comm.append_left _
  nodup := by
    apply h₁.nodup.append h₂.nodup
    intro k hk hk'
    exact h₂.undead k hk' (h₁.dead k hk)
  undead k hk hd := by
    rcases List.mem_append.1 hk with hk | hk
    · exact h₁.undead k hk hd
    · exact h₂.undead k hk (hd.grows h₁.grows)
  dead k hk := by
    rcases List.mem_append.1 hk with hk | hk
    · exact (h₁.dead k hk).grows h₂.grows
    · exact h₂.dead k hk
  recycled := by rw [h₂.recycled, h₁.recycled, List.length_append, Nat.add_assoc]
  grows := h₁.grows.trans h₂.grows

theorem not_dead_of_mem (hs : s.pool.Sound) (hw : s.pool.store.NoWrap) {k : BulletId}
    (hk : k ∈ s.pool.ids) : ¬ s.pool.store.IsDead k := by
  intro hd
  have hcur := hs.current k hk
  rw [Store.isCurrent, hd.slot? hw] at hcur
  cases hcur

theorem Trades.balances (h : Trades s s' arrived gone) (hs : s.pool.Sound)
    (hw : s.pool.store.NoWrap) (ha : s.Advances s') :
    Balances s s' arrived (s.pool.ids.removeAll s'.pool.ids) where
  perm := (h.perm hs.nodup).trans ((h.gone_perm hs.nodup).symm.append_left _)
  nodup := hs.nodup.filter _
  undead k hk := not_dead_of_mem hs hw (List.mem_filter.1 hk).1
  dead k hk := by
    rw [removeAll_eq_filter, List.mem_filter, decide_eq_true_iff] at hk
    exact (ha.gone k hk.1).resolve_left hk.2
  recycled := by rw [h.recycled, (h.gone_perm hs.nodup).length_eq]
  grows := ha.grows

/-- No bullet has come or gone twice. -/
theorem Balances.nodup_came (h : Balances s s' arrived gone) (hs : s'.pool.Sound)
    (hw : s'.pool.store.NoWrap) : (s.pool.ids ++ arrived).Nodup := by
  rw [h.perm.nodup_iff]
  apply hs.nodup.append h.nodup
  intro k hk hg
  exact not_dead_of_mem hs hw hk (h.dead k hg)

end Balances

end Simulation

namespace HostCall

/-- The handle of the bullet that a `create` answers. -/
def created : HostCall → Simulation → List BulletId
  | .create pos direction speed, s => (s.create pos direction speed).1.toList
  | _, _ => []

/-- The handle of the bullet that a `spawn` answers. -/
def spawned : HostCall → Simulation → List BulletId
  | .spawn p pos, s =>
    match (s.spawn p pos).1 with
    | .ok id => id.toList
    | .error _ => []
  | _, _ => []

/-- The handles of the bullets that a frame adds. -/
def fired : HostCall → Simulation → List BulletId
  | .update dt, s => (s.update dt).pool.ids.removeAll s.pool.ids
  | _, _ => []

/-- The handles of the bullets that a call takes away. -/
def removed (c : HostCall) (s : Simulation) : List BulletId :=
  s.pool.ids.removeAll (c.perform s).pool.ids

/-- What the calls of a run give, one after the other. -/
def gather (f : HostCall → Simulation → List BulletId) :
    List HostCall → Simulation → List BulletId
  | [], _ => []
  | c :: calls, s => f c s ++ gather f calls (c.perform s)

/-- Every call of the run is lawful for the handles that were seen before it, and no slot is freed
so often that its generations begin anew. -/
def LawfulRun : List BulletId → List HostCall → Simulation → Prop
  | _, [], _ => True
  | issued, c :: calls, s =>
    c.Lawful issued ∧ (c.perform s).NoWrap ∧
      LawfulRun (issued ++ (c.perform s).pool.ids) calls (c.perform s)

variable {g : Prop} {Q : Pattern → Prop} {s : Simulation} {c : HostCall}
  {issued : List BulletId} {calls : List HostCall}

theorem gather_append (f f' : HostCall → Simulation → List BulletId) (calls : List HostCall)
    (s : Simulation) :
    (gather (fun c s => f c s ++ f' c s) calls s).Perm (gather f calls s ++ gather f' calls s) := by
  induction calls generalizing s with
  | nil => exact .refl _
  | cons c calls ih =>
    rw [gather, gather, gather, List.append_assoc, List.append_assoc]
    apply List.Perm.append_left
    apply ((ih (c.perform s)).append_left _).trans
    rw [← List.append_assoc, ← List.append_assoc]
    exact List.perm_append_comm.append_right _

theorem spawned_of_refused {p : Pattern} {pos : Point}
    (h : ∀ id, (s.spawn p pos).1 ≠ .ok (some id)) : (HostCall.spawn p pos).spawned s = [] := by
  rcases hx : (s.spawn p pos).1 with e | _ | id
  · simp only [spawned, hx]
  · simp only [spawned, hx, Option.toList_none]
  · exact absurd hx (h id)

/-- Every call takes in the bullets that it answers or fires, and counts those that it takes
away. -/
theorem trades_perform (h : s.Orderly g Q) (hw : s.NoWrap) (hi : ∀ id ∈ issued, s.pool.Issued id)
    (hl : c.Lawful issued) (hQ : g → ∀ p, Q p → p.Closed) (hw' : (c.perform s).NoWrap) :
    ∃ gone, s.Trades (c.perform s) (c.created s ++ c.spawned s ++ c.fired s) gone ∧
      (c.firings s).length = (c.fired s).length := by
  cases c with
  | create pos direction speed =>
    have ht := h.trades_create pos direction speed
    exact ⟨[], by simpa [created, spawned, fired, perform] using ht, rfl⟩
  | spawn p pos =>
    rcases h.trades_spawn p pos with ⟨id, hx, ht⟩ | ⟨hx, ht⟩
    · exact ⟨[], by simpa [created, spawned, fired, perform, hx] using ht, rfl⟩
    · exact ⟨[], by simpa [created, spawned_of_refused hx, fired, perform] using ht, rfl⟩
  | update dt =>
    obtain ⟨arrived, gone, ht, hlength⟩ := h.trades_update hQ hw'.2
    have hfired : (HostCall.update dt).fired s = arrived := ht.arrived_eq
    refine ⟨gone, by simpa [created, spawned, hfired, perform] using ht, ?_⟩
    rw [hfired, hlength]
    rfl
  | vanish id =>
    rcases hi id hl with hid | hd
    · have hr := (h.vanish hid).2
      exact ⟨[id], hr.trades (List.nodup_singleton id) (by simpa using hid), rfl⟩
    · simp only [perform, Simulation.vanish_of_dead hd hw.1]
      exact ⟨[], .still rfl rfl, rfl⟩
  | clear => exact ⟨_, h.trades_vanishAll h.pool.nodup fun _ hk => hk, rfl⟩
  | setCapacity capacity =>
    obtain ⟨gone, ht⟩ := h.trades_setCapacity capacity
    exact ⟨gone, ht, rfl⟩
  | setRank rank => exact ⟨[], .still rfl rfl, rfl⟩
  | setTarget target => exact ⟨[], .still rfl rfl, rfl⟩
  | edit id f => exact ⟨[], .still rfl rfl, rfl⟩
  | collect => exact ⟨[], .still rfl rfl, rfl⟩

theorem LawfulRun.reachable (h : LawfulRun issued calls s)
    (hs : Simulation.Reachable (fun _ => True) issued s) :
    ∃ seen, Simulation.Reachable (fun _ => True) seen (performAll calls s) := by
  induction calls generalizing issued s with
  | nil => exact ⟨issued, hs⟩
  | cons c calls ih =>
    obtain ⟨hl, hw, hrest⟩ := h
    exact ih hrest (.step hs c trivial hl hw)

/-- A run keeps the balance of what has come and what has gone, and counts what it fires. -/
theorem LawfulRun.balances (h : LawfulRun issued calls s)
    (hs : Simulation.Reachable (fun _ => True) issued s) :
    s.Balances (performAll calls s) (gather (fun c s => c.created s ++ c.spawned s ++ c.fired s)
        calls s) (gather removed calls s) ∧
      (performAll calls s).context.stats.fired =
        s.context.stats.fired + (gather fired calls s).length := by
  induction calls generalizing issued s with
  | nil => exact ⟨.refl s, rfl⟩
  | cons c calls ih =>
    obtain ⟨hl, hw', hrest⟩ := h
    obtain ⟨ho, hw, hi⟩ := hs.inOrder
    obtain ⟨gone, ht, hlength⟩ := trades_perform ho hw hi hl nofun hw'
    have ha := (ho.perform hw hi hl nofun nofun hw').2
    obtain ⟨hb, hfired⟩ := ih hrest (.step hs c trivial hl hw')
    refine ⟨(ht.balances ho.pool hw.1 ha).trans hb, ?_⟩
    have hcall := (records_perform c s).fired
    rw [hlength] at hcall
    rw [gather, List.length_append, ← Nat.add_assoc, ← hcall]
    exact hfired

theorem misfire_adds_nothing {p : Pattern} {id : TaskId} {task : Task} {fire : FireState}
    {t : Turn} (hs : t.pool.Sound) (hk : task.kind = .fire fire)
    (h : t.pool.isFull = true ∨ ∃ e t', Turn.runFire p id task fire t = .error e t') :
    (Turn.state (Turn.runFire p id task fire t)).pool.ids = t.pool.ids ∧
      (Turn.state (Turn.runFire p id task fire t)).context.stats.fired = t.context.stats.fired ∧
      (Turn.state (Turn.runFire p id task fire t)).context.stats.recycled =
        t.context.stats.recycled := by
  have hv := Turn.shoots_fire p id task fire t
  rw [Turn.firedBy_of_misfire h] at hv
  obtain ⟨shots, ha, hf, _⟩ := hv.shots hs
  cases hf
  exact ⟨by simpa using ha.ids, hv.fired, (Turn.acts_fire hk).context.recycled⟩

/-- The bullets that are there and those that were recycled are, each of them once, those that the
host has created or spawned and those that were fired. A pattern that is not started and a fire
that fails or finds no room count for nothing. -/
theorem bullets_are_accounted_for (capacity : Nat) (seed : UInt64) (rank : Float32)
    (cull : Option Bounds) (margin : Float32) (calls : List HostCall)
    (h : LawfulRun [] calls (.init capacity seed rank cull margin)) :
    let start := Simulation.init capacity seed rank cull margin
    let s := performAll calls start
    let came := gather created calls start ++ gather spawned calls start ++
      gather fired calls start
    let gone := gather removed calls start
    s.size + s.context.stats.recycled = (gather created calls start).length +
      (gather spawned calls start).length + s.context.stats.fired ∧
    (gather fired calls start).length = s.context.stats.fired ∧
    gone.length = s.context.stats.recycled ∧
    came.Nodup ∧ came.Perm (s.pool.ids ++ gone) ∧
    (∀ p pos, (∀ id, (s.spawn p pos).1 ≠ .ok (some id)) →
      (s.spawn p pos).2.pool.ids = s.pool.ids ∧
      (s.spawn p pos).2.context.stats.fired = s.context.stats.fired ∧
      (s.spawn p pos).2.context.stats.recycled = s.context.stats.recycled) ∧
    ∀ p id task fire t, t.pool.Sound → task.kind = .fire fire →
      (t.pool.isFull = true ∨ ∃ e t', Turn.runFire p id task fire t = .error e t') →
      (Turn.state (Turn.runFire p id task fire t)).pool.ids = t.pool.ids ∧
      (Turn.state (Turn.runFire p id task fire t)).context.stats.fired = t.context.stats.fired ∧
      (Turn.state (Turn.runFire p id task fire t)).context.stats.recycled =
        t.context.stats.recycled := by
  intro start s came gone
  have hstart : Simulation.Reachable (fun _ => True) [] start := .init ..
  obtain ⟨hb, hfired⟩ := h.balances hstart
  obtain ⟨_, hs⟩ := h.reachable hstart
  obtain ⟨ho, hw, _⟩ := hs.inOrder
  have hcame : (gather (fun c s => c.created s ++ c.spawned s ++ c.fired s) calls start).Perm
      came :=
    (gather_append _ fired calls start).trans
      ((gather_append created spawned calls start).append_right _)
  have hperm : came.Perm (s.pool.ids ++ gone) := hcame.symm.trans hb.perm
  have hnodup : came.Nodup := hcame.nodup (hb.nodup_came ho.pool hw.1)
  have hrecycled : gone.length = s.context.stats.recycled := by
    rw [hb.recycled]
    exact (Nat.zero_add _).symm
  have hcount : (gather fired calls start).length = s.context.stats.fired := by
    rw [hfired]
    exact (Nat.zero_add _).symm
  refine ⟨?_, hcount, hrecycled, hnodup, hperm, ?_, ?_⟩
  · have hlength := hperm.length_eq
    simp only [came, List.length_append] at hlength
    rw [← hrecycled, ← hcount, hlength]
    rfl
  · intro p pos hrefused
    have hids : (s.spawn p pos).2.pool.ids = s.pool.ids := by
      rcases ho.trades_spawn p pos with ⟨id, hx, _⟩ | ⟨_, ht⟩
      · exact absurd hx (hrefused id)
      · simpa using ht.ids
    exact ⟨hids, (s.records_spawn p pos).fired, s.recycled_spawn p pos⟩
  · intro p id task fire t hpool hk hmisfire
    exact misfire_adds_nothing hpool hk hmisfire

/-- A spark fires a bullet, and there is one without a pattern; then all but the last must go. -/
def sparkRun : List HostCall :=
  [.spawn .spark .zero, .create .zero 0 0, .update 0, .setCapacity 1]

theorem spark_is_accounted_for :
    LawfulRun [] sparkRun (.init 4 0 0 none 0) ∧
      (gather created sparkRun (.init 4 0 0 none 0)).length = 1 ∧
      (gather spawned sparkRun (.init 4 0 0 none 0)).length = 1 ∧
      let s := performAll sparkRun (.init 4 0 0 none 0)
      s.context.stats = ⟨1, 0, 2⟩ ∧ s.size + 2 = 1 + 1 + 1 := by
  have hrun : LawfulRun [] sparkRun (.init 4 0 0 none 0) := by
    refine ⟨trivial, ?_, trivial, ?_, trivial, ?_, trivial, ?_, trivial⟩ <;> decide +kernel
  have hcreated : (gather created sparkRun (.init 4 0 0 none 0)).length = 1 := by decide +kernel
  have hspawned : (gather spawned sparkRun (.init 4 0 0 none 0)).length = 1 := by decide +kernel
  have hstats : (performAll sparkRun (.init 4 0 0 none 0)).context.stats = ⟨1, 0, 2⟩ := by
    decide +kernel
  have h := (bullets_are_accounted_for 4 0 0 none 0 sparkRun hrun).1
  simp only [hcreated, hspawned, hstats] at h
  exact ⟨hrun, hcreated, hspawned, hstats, h⟩

end HostCall
end Barrage

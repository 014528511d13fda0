import Barrage.Proofs.Frame

namespace Barrage.Simulation

/-- Whether a live bullet is marked to be recycled. -/
def isVanished (s : Simulation) (id : BulletId) : Bool := (s.get? id).any Bullet.vanished

variable {g : Prop} {Q : Pattern → Prop} {s s' s'' : Simulation} {id k : BulletId} {b b' : Bullet}
  {calls more : List Turn.Call} {shots : List Bullet} {scale dt : Float32} {i n : Nat}

section Loop

theorem evolves_tickFrom (hs : s.tasks.Sound) (scale : Float32) (n i : Nat) :
    s.tasks.Evolves (tickFrom scale n i s).tasks := by
  induction n generalizing i s with
  | zero => exact hs.evolves
  | succ n ih =>
    rw [tickFrom]
    split
    · exact hs.evolves
    · exact (evolves_tick hs scale _).bind fun h => ih h (i + 1)

theorem evolves_tickFrom_of_le {m n : Nat} (hs : s.tasks.Sound) (scale : Float32) (h : m ≤ n)
    (i : Nat) : (tickFrom scale m i s).tasks.Evolves (tickFrom scale n i s).tasks := by
  induction m generalizing n i s with
  | zero => exact evolves_tickFrom hs scale n i
  | succ m ih =>
    obtain ⟨n, rfl⟩ := Nat.exists_eq_add_of_le' h
    rw [Nat.add_comm n (m + 1), Nat.add_right_comm m 1 n, tickFrom, tickFrom]
    cases s.pool.idAt? i with
    | none => exact hs.evolves
    | some id => exact ih (evolves_tick hs scale id).sound (Nat.le_add_right m n) (i + 1)

/-- The index loop takes the bullets in the order in which they stood when it began: what is fired
meanwhile comes after all of them. -/
theorem Orderly.tickFrom (h : s.Orderly g Q) (hQ : g → ∀ p, Q p → p.Closed)
    (pre ids extra : List BulletId) (hids : s.pool.ids = pre ++ ids ++ extra)
    (hw : (tickFrom scale ids.length pre.length s).tasks.NoWrap) :
    tickFrom scale ids.length pre.length s = s.tickAll scale ids := by
  induction ids generalizing s pre extra with
  | nil => rfl
  | cons id ids ih =>
    have hat : s.pool.idAt? pre.length = some id := by
      rw [Pool.idAt?, ← Array.getElem?_toList, show s.pool.order.toList = _ from hids]
      simp
    have hid : id ∈ s.pool.ids := by simp [hids]
    rw [List.length_cons, Simulation.tickFrom, hat] at hw ⊢
    have hstep := evolves_tick h.arena scale id
    have hw' := (evolves_tickFrom hstep.sound scale ids.length (pre.length + 1)).grows.noWrap hw
    obtain ⟨b, shots, ht, _⟩ := h.tick hQ hid hw'
    have hnext : (s.tick scale id).pool.ids =
        (pre ++ [id]) ++ ids ++ (extra ++ shots.map Bullet.id) := by
      rw [ht.ids, hids]
      simp
    have hlen : (pre ++ [id]).length = pre.length + 1 := by simp
    rw [← hlen] at hw ⊢
    exact ih ht.orderly _ _ hnext hw

end Loop

section Sweep

theorem grows_vanish : s.tasks.Grows (s.vanish id).2.tasks := by
  unfold vanish
  split
  · exact .refl _
  · exact Arena.grows_releaseAll _ _

theorem grows_vanishAll (ids : List BulletId) : s.tasks.Grows (s.vanishAll ids).tasks := by
  induction ids generalizing s with
  | nil => exact .refl _
  | cons id ids ih => exact grows_vanish.trans ih

theorem mem_vanished (hs : s.pool.Sound) :
    id ∈ (s.bullets.filter Bullet.vanished).map Bullet.id ↔ s.isVanished id = true := by
  constructor
  · intro hm
    obtain ⟨b, hb, rfl⟩ := List.mem_map.1 hm
    obtain ⟨hb, hv⟩ := List.mem_filter.1 hb
    obtain ⟨k, _, hk⟩ := Pool.mem_bullets.1 hb
    have hget : s.get? b.id = some b := (hs.listed k b hk).2 ▸ hk
    rw [isVanished, hget]
    exact hv
  · intro hv
    obtain ⟨b, hb, hvb⟩ := (Option.any_eq_true _ _).1 hv
    obtain ⟨hid, rfl⟩ := hs.listed id b hb
    exact List.mem_map_of_mem (List.mem_filter.2 ⟨Pool.mem_bullets.2 ⟨b.id, hid, hb⟩, hvb⟩)

theorem Orderly.vanished_sublist (h : s.Orderly g Q) :
    ((s.bullets.filter Bullet.vanished).map Bullet.id).Sublist s.pool.ids := by
  have hids : s.bullets.map Bullet.id = s.pool.ids := h.pool.bullets_map_id h.seated
  rw [← hids]
  exact List.filter_sublist.map Bullet.id

/-- The sweep recycles the bullets that are marked and no others. -/
theorem Orderly.sweep (h : s.Orderly g Q) :
    s.sweep.Orderly g Q ∧
      s.Recycles s.sweep ((s.bullets.filter Bullet.vanished).map Bullet.id) := by
  have hsub := h.vanished_sublist
  exact h.vanishAll (hsub.nodup h.pool.nodup) fun k hk => hsub.subset hk

theorem Orderly.sweep_ids (h : s.Orderly g Q) :
    s.sweep.pool.ids = s.pool.ids.filter fun id => !s.isVanished id := by
  rw [h.sweep.2.ids]
  apply List.filter_congr
  intro k _
  rw [decide_not, Bool.not_inj_iff, Bool.eq_iff_iff, decide_eq_true_iff]
  exact mem_vanished h.pool

theorem Orderly.get?_sweep (h : s.Orderly g Q) (hv : s.isVanished id = false) :
    s.sweep.get? id = s.get? id := by
  apply h.sweep.2.kept id
  intro hm
  rw [(mem_vanished h.pool).1 hm] at hv
  cases hv

end Sweep

/-- The simulation once every bullet that was live when the frame began has had its frame. -/
def ticked (s : Simulation) (dt : Float32) : Simulation :=
  ({ s with frame := s.frame + 1 } : Simulation).tickAll (dt * referenceFps) s.pool.ids

/-- What is run in a frame. -/
def frameLog (s : Simulation) (dt : Float32) : List Turn.Call :=
  ({ s with frame := s.frame + 1 } : Simulation).logAll (dt * referenceFps) s.pool.ids

theorem Orderly.begin (h : s.Orderly g Q) :
    ({ s with frame := s.frame + 1 } : Simulation).Orderly g Q :=
  ⟨h.pool, h.seated, h.arena, h.tended, h.stops⟩

/-- A frame is the frames of the bullets that were live when it began, and the sweep. -/
theorem Orderly.update_eq (h : s.Orderly g Q) (hQ : g → ∀ p, Q p → p.Closed)
    (hw : (s.update dt).tasks.NoWrap) :
    s.update dt = (s.ticked dt).sweep ∧ (s.ticked dt).tasks.NoWrap := by
  have hloop := h.begin.tickFrom hQ [] s.pool.ids [] (by simp) ((grows_vanishAll _).noWrap hw)
  have he : s.update dt = (s.ticked dt).sweep := by
    rw [ticked, ← hloop]
    rfl
  rw [he] at hw
  exact ⟨he, (grows_vanishAll _).noWrap hw⟩

theorem Orderly.logged (h : s.Orderly g Q) (hQ : g → ∀ p, Q p → p.Closed)
    (hw : (s.ticked dt).tasks.NoWrap) :
    Ticks (dt * referenceFps) { s with frame := s.frame + 1 } s.pool.ids (s.frameLog dt)
      (s.ticked dt) :=
  h.begin.ticks hQ (fun _ hid => hid) hw

theorem Orderly.trace (h : s.Orderly g Q) (hQ : g → ∀ p, Q p → p.Closed)
    (hw : (s.ticked dt).tasks.NoWrap) :
    ∃ calls, Ticks (dt * referenceFps) { s with frame := s.frame + 1 } s.pool.ids calls
      (s.ticked dt) :=
  ⟨_, h.logged hQ hw⟩

theorem Orderly.framed (h : s.Orderly g Q) (hQ : g → ∀ p, Q p → p.Closed)
    (hw : (s.ticked dt).tasks.NoWrap)
    (ht : Ticks (dt * referenceFps) { s with frame := s.frame + 1 } s.pool.ids calls
      (s.ticked dt)) :
    ∃ shots, Framed g Q (dt * referenceFps) { s with frame := s.frame + 1 } (s.ticked dt)
      s.pool.ids calls shots :=
  ht.framed h.begin hQ h.pool.nodup (fun _ hid => hid) hw

/-- A frame keeps everything in order. -/
theorem Orderly.update (h : s.Orderly g Q) (hQ : g → ∀ p, Q p → p.Closed)
    (hw : (s.update dt).tasks.NoWrap) :
    (s.update dt).Orderly g Q ∧ s.Advances (s.update dt) := by
  obtain ⟨he, hw'⟩ := h.update_eq hQ hw
  obtain ⟨calls, ht⟩ := h.trace hQ hw'
  obtain ⟨shots, hf⟩ := h.framed hQ hw' ht
  obtain ⟨ho, hr⟩ := hf.orderly.sweep
  have hbegin : s.Advances { s with frame := s.frame + 1 } := .of_pool rfl
  rw [he]
  exact ⟨ho, (hbegin.trans hf.advances).trans hr.advances⟩

end Barrage.Simulation

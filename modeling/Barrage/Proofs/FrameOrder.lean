import Barrage.Proofs.Host

namespace Barrage.Simulation

variable {g : Prop} {Q : Pattern → Prop} {issued : List BulletId} {s s' : Simulation}
  {ids : List BulletId} {calls : List Turn.Call} {shots : List Bullet} {scale : Float32}

theorem Framed.not_vanished {shot : Bullet} (h : Framed g Q scale s s' ids calls shots)
    (hs : shot ∈ shots) : s'.isVanished shot.id = false := by
  obtain ⟨hget, hv⟩ := h.added shot hs
  rw [isVanished, hget]
  exact hv

/-- What is left after a frame: the old bullets that have not vanished, and the new ones. -/
theorem Framed.sweep_ids (h : Framed g Q scale s s' ids calls shots) :
    s'.sweep.pool.ids =
      (s.pool.ids.filter fun id => !s'.isVanished id) ++ calls.flatMap Turn.Call.fired := by
  have hkeep :
      (shots.map Bullet.id).filter (fun id => !s'.isVanished id) = shots.map Bullet.id := by
    apply List.filter_eq_self.2
    intro id hm
    obtain ⟨shot, hs, rfl⟩ := List.mem_map.1 hm
    rw [h.not_vanished hs]
    rfl
  rw [h.orderly.sweep_ids, h.order, List.filter_append, hkeep, h.fired]

end Barrage.Simulation

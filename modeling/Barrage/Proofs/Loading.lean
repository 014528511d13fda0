import Barrage.Proofs.Family
import Barrage.Proofs.Thrives
import Barrage.Proofs.Validation

namespace Barrage

/-- The tasks have the room that they need. -/
def Arena.Ample (tasks : Arena) (p : Pattern) (ids : List TaskId) : Prop :=
  ∃ ws, tasks.Shows ids ws ∧ ∀ w ∈ ws, w.Ample p maxTaskChain

namespace Simulation

/-- All tasks of the bullets that run the pattern have the room that they need. -/
def Thriving (s : Simulation) (p : Pattern) : Prop :=
  ∀ k b, s.get? k = some b → b.pattern = some p → s.tasks.Ample p b.tasks

variable {Q : Pattern → Prop} {p : Pattern} {s s' : Simulation} {id k : BulletId} {b b' : Bullet}
  {a : Actor} {as : List Actor} {scale dt : Float32} {ids issued : List BulletId} {c : HostCall}

section Laws

/-- A bullet of the pattern that is not left alone must have room anew. -/
theorem Thriving.step (h : s.Thriving p)
    (hk : ∀ k b, s'.get? k = some b → b.pattern = some p →
      s.Spares s' k ∨ s'.tasks.Ample p b.tasks) : s'.Thriving p := by
  intro k b hb hp
  rcases hk k b hb hp with hs | ha
  · have hold := hs.get?.symm.trans hb
    obtain ⟨ws, hw, hws⟩ := h k b hold hp
    exact ⟨ws, hs.shows b ws hold hw, hws⟩
  · exact ha

theorem Casts.mem (h : s.Casts p ids as) (hk : k ∈ ids) : ∃ a ∈ as, s.Embodies p k a := by
  induction h with
  | nil => cases hk
  | cons ha _ ih =>
    rcases List.mem_cons.1 hk with rfl | hk
    · exact ⟨_, List.mem_cons_self, ha⟩
    · obtain ⟨a, hm, he⟩ := ih hk
      exact ⟨a, List.mem_cons_of_mem _ hm, he⟩

end Laws

section Tick

end Tick

section Frame

end Frame

section Host

theorem Thriving.modifyBullet {f : Bullet → Bullet} (h : s.Thriving p)
    (ht : ∀ b, (f b).tasks = b.tasks) (hp : ∀ b, (f b).pattern = b.pattern) :
    (s.modifyBullet id f).Thriving p := by
  intro k b hb hpat
  have hget : (s.modifyBullet id f).get? k = _ := Pool.get?_modify
  rw [hget] at hb
  split at hb
  · obtain ⟨b₀, hb₀, rfl⟩ := Option.map_eq_some_iff.1 hb
    rw [hp b₀] at hpat
    rw [ht b₀]
    exact h id b₀ hb₀ hpat
  · exact h k b hb hpat

end Host

end Simulation

namespace Simulation

end Simulation
end Barrage

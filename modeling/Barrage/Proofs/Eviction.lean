import Barrage.Proofs.Accounting
import Barrage.Proofs.Removal

namespace Barrage
namespace Simulation

variable {Q : Pattern → Prop} {s : Simulation} {issued : List BulletId} {b : Bullet}
  {gone kept : List Bullet} {id : BulletId}

/-- There is room for `n` bullets, and the older ones beyond them are gone with their trees. All
else is as it was. -/
structure Shrinks (s : Simulation) (n : Nat) (gone : List Bullet) (s' : Simulation) : Prop where
  rest : s' = { s with
    pool := s'.pool
    tasks := s'.tasks
    context := { s.context with
      stats := { s.context.stats with
        recycled := s.context.stats.recycled + (s.size - n) } } }
  capacity : s'.pool.capacity = n
  size : s'.size = min s.size n
  ids : s.pool.ids = gone.map Bullet.id ++ s'.pool.ids
  bullets : s.bullets = gone ++ s'.bullets
  stale : ∀ b ∈ gone, s'.get? b.id = none ∧ s'.vanish b.id = (false, s')
  fells : s.tasks.Fells s'.tasks (gone.flatMap Bullet.tasks)
  live : s'.tasks.live + (gone.map fun b => (s.tasks.below b.tasks).ncard).sum = s.tasks.live
  others : ∀ k ∉ gone.map Bullet.id, s.Untouched s' k
  roomy : s.size ≤ n → s' = { s with pool := s.pool.setCapacity n }

section Bullets

theorem Orderly.map_id_bullets (h : s.Orderly False Q) : s.bullets.map Bullet.id = s.pool.ids :=
  h.pool.bullets_map_id h.seated

theorem Orderly.length_bullets (h : s.Orderly False Q) : s.bullets.length = s.size := by
  have hlength := congrArg List.length h.map_id_bullets
  rw [List.length_map] at hlength
  exact hlength

theorem Orderly.get?_of_mem_bullets (h : s.Orderly False Q) (hb : b ∈ s.bullets) :
    s.get? b.id = some b := by
  obtain ⟨k, _, hk⟩ := Pool.mem_bullets.1 hb
  rw [(h.pool.listed k b hk).2]
  exact hk

/-- The bullets of a simulation are those of another, if it lists and holds the same. -/
theorem bullets_eq_of_ids {s' : Simulation} {bs : List Bullet}
    (hids : s'.pool.ids = bs.map Bullet.id) (hg : ∀ b ∈ bs, s'.get? b.id = some b) :
    s'.bullets = bs := by
  have hbullets : s'.bullets = s'.pool.ids.filterMap s'.get? := rfl
  have hfind : bs.filterMap (s'.get? ∘ Bullet.id) = bs.filterMap some := List.filterMap_congr hg
  rw [hbullets, hids, List.filterMap_map, hfind, List.filterMap_some]

end Bullets

section Vanish

theorem vanish_of_isDead (hd : s.pool.store.IsDead id) (hw : s.pool.store.NoWrap) :
    s.vanish id = (false, s) := by
  have hc : s.pool.store.isCurrent id = false := by
    rw [Store.isCurrent, hd.slot? hw]
    rfl
  unfold vanish
  rw [Pool.remove_of_not_current hc]

/-- To recycle several bullets is to release their trees and to count them. -/
theorem Orderly.vanishAll_eq (h : s.Orderly False Q) (hn : (gone.map Bullet.id).Nodup)
    (hg : ∀ b ∈ gone, s.get? b.id = some b) :
    s.vanishAll (gone.map Bullet.id) = { s with
      pool := (s.vanishAll (gone.map Bullet.id)).pool
      tasks := s.tasks.releaseAll (gone.flatMap Bullet.tasks)
      context := { s.context with
        stats := { s.context.stats with
          recycled := s.context.stats.recycled + gone.length } } } ∧
      (s.vanishAll (gone.map Bullet.id)).pool.capacity = s.pool.capacity := by
  induction gone generalizing s with
  | nil => exact ⟨rfl, rfl⟩
  | cons b gone ih =>
    rw [List.map_cons, List.nodup_cons] at hn
    have hb := hg b List.mem_cons_self
    have hid := (h.pool.listed b.id b hb).1
    obtain ⟨ho, hr⟩ := h.vanish hid
    have hrest (b') (hm : b' ∈ gone) : (s.vanish b.id).2.get? b'.id = some b' := by
      have hne : b'.id ≠ b.id := fun he => hn.1 (he ▸ List.mem_map_of_mem hm)
      rw [hr.kept b'.id (by simpa using hne)]
      exact hg b' (List.mem_cons_of_mem _ hm)
    obtain ⟨heq, hcap⟩ := ih ho hn.2 hrest
    have hstep := vanish_of_live h hb
    have hremove : (s.vanish b.id).2.pool.capacity = s.pool.capacity := by
      rw [hstep, Pool.remove_of_current (h.pool.current b.id hid)]
    have hfold : s.vanishAll ((b :: gone).map Bullet.id) =
        (s.vanish b.id).2.vanishAll (gone.map Bullet.id) := rfl
    rw [hfold]
    refine ⟨?_, hcap.trans hremove⟩
    rw [heq, hstep]
    simp only [Context.countRecycled, List.flatMap_cons, Arena.releaseAll, List.foldl_append,
      List.length_cons]
    rw [Nat.add_assoc, Nat.add_comm 1]

end Vanish

section Oldest

variable (h : s.Orderly False Q) (hsplit : s.bullets = gone ++ kept)
include h hsplit

theorem Orderly.ids_split : s.pool.ids = gone.map Bullet.id ++ kept.map Bullet.id := by
  rw [← h.map_id_bullets, hsplit, List.map_append]

theorem Orderly.nodup_split :
    (gone.map Bullet.id).Nodup ∧ ∀ b ∈ kept, b.id ∉ gone.map Bullet.id := by
  obtain ⟨hn, _, hdisjoint⟩ := List.nodup_append.1 (h.ids_split hsplit ▸ h.pool.nodup)
  exact ⟨hn, fun b hb hm => hdisjoint b.id hm b.id (List.mem_map_of_mem hb) rfl⟩

theorem Orderly.mem_ids_split : ∀ k ∈ gone.map Bullet.id, k ∈ s.pool.ids := by
  intro k hk
  rw [h.ids_split hsplit]
  exact List.mem_append_left _ hk

theorem Orderly.vanishAll_oldest : s.vanishAll (gone.map Bullet.id) = { s with
      pool := (s.vanishAll (gone.map Bullet.id)).pool
      tasks := s.tasks.releaseAll (gone.flatMap Bullet.tasks)
      context := { s.context with
        stats := { s.context.stats with
          recycled := s.context.stats.recycled + gone.length } } } ∧
      (s.vanishAll (gone.map Bullet.id)).pool.capacity = s.pool.capacity := by
  apply h.vanishAll_eq (h.nodup_split hsplit).1
  intro b hb
  exact h.get?_of_mem_bullets (hsplit ▸ List.mem_append_left _ hb)

theorem Orderly.recycles_oldest :
    (s.vanishAll (gone.map Bullet.id)).Orderly False Q ∧
      s.Recycles (s.vanishAll (gone.map Bullet.id)) (gone.map Bullet.id) :=
  h.vanishAll (h.nodup_split hsplit).1 (h.mem_ids_split hsplit)

theorem Orderly.ids_vanishAll :
    (s.vanishAll (gone.map Bullet.id)).pool.ids = kept.map Bullet.id := by
  have hapart := (h.nodup_split hsplit).2
  rw [(h.recycles_oldest hsplit).2.ids, h.ids_split hsplit, List.filter_append,
    List.filter_eq_nil_iff.2, List.filter_eq_self.2, List.nil_append]
  · intro k hk
    obtain ⟨b, hb, rfl⟩ := List.mem_map.1 hk
    exact decide_eq_true (hapart b hb)
  · intro k hk hout
    exact of_decide_eq_true hout hk

theorem Orderly.bullets_vanishAll : (s.vanishAll (gone.map Bullet.id)).bullets = kept := by
  apply bullets_eq_of_ids (h.ids_vanishAll hsplit)
  intro b hb
  rw [(h.recycles_oldest hsplit).2.kept b.id ((h.nodup_split hsplit).2 b hb)]
  exact h.get?_of_mem_bullets (hsplit ▸ List.mem_append_right _ hb)

theorem Orderly.isDead_vanishAll (hb : b ∈ gone) :
    (s.vanishAll (gone.map Bullet.id)).pool.store.IsDead b.id := by
  have hid : b.id ∈ gone.map Bullet.id := List.mem_map_of_mem hb
  have hmem := h.mem_ids_split hsplit b.id hid
  refine ((h.recycles_oldest hsplit).2.advances.gone b.id hmem).resolve_left fun hlive => ?_
  rw [h.ids_vanishAll hsplit] at hlive
  obtain ⟨b', hb', he⟩ := List.mem_map.1 hlive
  exact (h.nodup_split hsplit).2 b' hb' (he ▸ hid)

/-- The tasks that are lost are those of the bullets that are gone. -/
theorem Orderly.fells_vanishAll :
    s.tasks.Fells (s.vanishAll (gone.map Bullet.id)).tasks (gone.flatMap Bullet.tasks) ∧
      (s.vanishAll (gone.map Bullet.id)).tasks.live +
        (gone.map fun b => (s.tasks.below b.tasks).ncard).sum = s.tasks.live := by
  obtain ⟨X, hX⟩ := h.tended
  obtain ⟨V, _, hV, _⟩ := (hsplit ▸ hX.owned).of_append
  have hfells := hV.spans.fells h.arena
  rw [(h.vanishAll_oldest hsplit).1]
  refine ⟨hfells, ?_⟩
  rw [← hV.card, ← Set.ncard_coe_finset, ← hV.spans.below_eq]
  exact hfells.live

end Oldest

theorem Orderly.shrinks (h : s.Orderly False Q) (n : Nat)
    (hw : (s.setCapacity n).pool.store.NoWrap) :
    ∃ gone, s.Shrinks n gone (s.setCapacity n) := by
  have ho := h.resize n
  obtain ⟨gone, kept, hsplit, hlength⟩ :
      ∃ gone kept, s.bullets = gone ++ kept ∧ gone.length = s.size - n := by
    refine ⟨_, _, (List.take_append_drop (s.size - n) s.bullets).symm, ?_⟩
    rw [List.length_take, h.length_bullets]
    omega
  have hcut : s.setCapacity n =
      ({ s with pool := s.pool.setCapacity n } : Simulation).vanishAll (gone.map Bullet.id) := by
    have htake : s.pool.ids.take (s.size - n) = gone.map Bullet.id := by
      rw [h.ids_split hsplit, ← hlength, ← List.length_map Bullet.id, List.take_left]
    rw [← htake]
    exact ho.evict_eq _
  obtain ⟨hrest, hcap⟩ := ho.vanishAll_oldest hsplit
  have hids := ho.ids_vanishAll hsplit
  have hbullets := ho.bullets_vanishAll hsplit
  have hdead (b) (hb : b ∈ gone) := ho.isDead_vanishAll hsplit hb
  obtain ⟨hfells, hlive⟩ := ho.fells_vanishAll hsplit
  have hafter := (ho.recycles_oldest hsplit).1
  have hothers (k) (hk : k ∉ gone.map Bullet.id) :=
    ho.untouched_vanishAll (ho.nodup_split hsplit).1 (ho.mem_ids_split hsplit) hk
  rw [← hcut] at hrest hcap hids hbullets hdead hfells hlive hafter hothers
  refine ⟨gone, ?_, hcap, ?_, ?_, hbullets ▸ hsplit, ?_, hfells, hlive, ?_, ?_⟩
  · rw [← hlength, hrest]
  · have hsize := h.length_bullets
    rw [hsplit, List.length_append] at hsize
    rw [← hafter.length_bullets, hbullets]
    omega
  · rw [hids]
    exact h.ids_split hsplit
  · intro b hb
    refine ⟨?_, vanish_of_isDead (hdead b hb) hw⟩
    rw [get?, Pool.get?, Store.get?, (hdead b hb).slot? hw]
    rfl
  · intro k hk
    obtain ⟨hget, htasks⟩ := hothers k hk
    exact ⟨hget, htasks⟩
  · intro hroom
    have hzero : s.size - n = 0 := Nat.sub_eq_zero_of_le hroom
    rw [Simulation.setCapacity, hzero, Simulation.evict]

/-- Where there is room for fewer bullets, the oldest make way. -/
theorem shrinking_evicts_oldest (h : Reachable (fun _ => True) issued s) (n : Nat)
    (hw : (s.setCapacity n).NoWrap) :
    ∃ gone, s.Shrinks n gone (s.setCapacity n) := by
  obtain ⟨ho, _, _⟩ := h.inOrder
  exact ho.shrinks n hw.1

/-- A shot outlives the bullet that has fired it. -/
theorem shot_outlives_its_firer :
    ∃ s gone, s = (HostCall.update 0).perform lit ∧ s.size = 2 ∧ (s.setCapacity 1).NoWrap ∧
      s.Shrinks 1 gone (s.setCapacity 1) := by
  let s := (HostCall.update 0).perform lit
  have hr : Reachable (fun _ => True) _ s :=
    .step (reachable_lit trivial) (.update 0) trivial trivial (by decide +kernel)
  have hw : (s.setCapacity 1).NoWrap := by decide +kernel
  obtain ⟨gone, hs⟩ := shrinking_evicts_oldest hr 1 hw
  exact ⟨s, gone, rfl, by decide +kernel, hw, hs⟩

end Simulation
end Barrage

import Barrage.Proofs.Ownership

namespace Barrage

/-- What a task that is run for a bullet finds: it is live, it and the nodes it works on are of the
bullet's own pattern, and the free slots are slots. -/
structure Turn.Call.InRange (c : Turn.Call) : Prop where
  slots : ∀ t ∈ [c.before, c.after], t.tasks.store.InRange ∧ t.pool.store.InRange
  task : ∃ p task, c.before.bullet.pattern = some p ∧ p.Closed ∧
    c.before.tasks.get? c.task = some task ∧ p.Bound task.node task.kind

namespace Simulation

variable {Q : Pattern → Prop} {issued : List BulletId} {s : Simulation} {b : Bullet} {id : TaskId}

/-- A task below a bullet works on nodes of the bullet's own pattern. -/
theorem Orderly.bound (h : s.Orderly True Q) (hb : b ∈ s.bullets)
    (hid : id ∈ s.tasks.below b.tasks) :
    ∃ p task, b.pattern = some p ∧ s.tasks.get? id = some task ∧ p.Bound task.node task.kind := by
  obtain ⟨X, hX⟩ := h.tended
  obtain ⟨Y, _, hd⟩ := hX.owned.drives hb
  have hmem : id ∈ Y := by
    rw [← Finset.mem_coe, ← hd.spans.below_eq]
    exact hid
  obtain ⟨hlive, root, hroot, _⟩ := hid
  obtain ⟨task, ht⟩ := Arena.contains_iff.1 hlive
  cases hp : b.pattern with
  | none =>
    rw [hd.idle trivial hp] at hroot
    cases hroot
  | some p =>
    exact ⟨p, task, rfl, ht, Bullet.program_of_some hp ▸ (hd.fit id hmem task ht).bound trivial⟩

theorem Orderly.legal {p : Pattern} (h : s.Orderly True Q) (hb : b ∈ s.bullets)
    (hp : b.pattern = some p) : Q p := by
  obtain ⟨X, hX⟩ := h.tended
  obtain ⟨Y, _, hd⟩ := hX.owned.drives hb
  exact hd.legal trivial p hp

theorem Orderly.inRange {c : Turn.Call} {calls : List Turn.Call} {shots : List Bullet}
    {scale : Float32} {s' : Simulation} {ids : List BulletId} (h : s.Orderly True Q)
    (hQ : ∀ p, Q p → p.Closed) (hf : Framed True Q scale s s' ids calls shots) (hc : c ∈ calls) :
    c.InRange ∧ ∀ id, c.answer ≠ .error (.staleTask id) := by
  obtain ⟨b, _, hb, halike, hpat, hsafe, _⟩ := hf.logged c hc
  obtain ⟨task, hget, hbound⟩ := hsafe.task
  have hmem : b ∈ s.bullets := Pool.mem_bullets.2 ⟨b.id, (h.pool.listed _ _ hb).1, hb⟩
  refine ⟨⟨?_, b.program, task, halike.pattern.trans hpat, hQ _ (h.legal hmem hpat), hget,
    hbound trivial⟩, ?_⟩
  · intro t ht
    rcases List.mem_cons.1 ht with rfl | ht
    · exact ⟨hsafe.tasks.1.store.inRange, hsafe.pool.1.store.inRange⟩
    · rw [List.mem_singleton.1 ht]
      exact ⟨hsafe.tasks.2.store.inRange, hsafe.pool.2.store.inRange⟩
  · intro id hstale
    exact (hsafe.answer _ hstale trivial).not_stale id rfl

end Simulation
end Barrage

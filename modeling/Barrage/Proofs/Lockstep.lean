import Barrage.Proofs.Twins

namespace Barrage

theorem Pool.Mirrors.bullets {R : Bullet → Bullet → Prop} {p p' : Pool} (h : p.Mirrors R p') :
    List.Forall₂ R p.bullets p'.bullets := by
  unfold Pool.bullets
  rw [h.order]
  induction p.order.toList with
  | nil => exact .nil
  | cons id ids ih =>
    rw [List.filterMap_cons, List.filterMap_cons]
    have hget := h.get? id
    generalize p.get? id = x at hget ⊢
    generalize p'.get? id = y at hget ⊢
    cases hget with
    | none => exact ih
    | some hb => exact .cons hb ih

/-- An edit goes by what can be seen of a bullet and changes nothing else of it. A bullet that is
to vanish cannot be called back. -/
structure Bullet.Edits (f : Bullet → Bullet) : Prop where
  id : ∀ b, (f b).id = b.id
  tasks : ∀ b, (f b).tasks = b.tasks
  pattern : ∀ b, (f b).pattern = b.pattern
  motion : ∀ b b', b'.id = b.id → b'.motion = b.motion → (f b').motion = (f b).motion
  vanished : ∀ b, b.vanished = true → (f b).vanished = true

theorem Twin.vanished_ids {p q : Pattern} {ρ : NodeId → NodeId → Prop} {a a' : Arena}
    {bs bs' : List Bullet} (h : List.Forall₂ (Twin p q ρ a a') bs bs') :
    (bs'.filter Bullet.vanished).map Bullet.id = (bs.filter Bullet.vanished).map Bullet.id := by
  induction h with
  | nil => rfl
  | cons hb _ ih =>
    rw [List.filter_cons, List.filter_cons, hb.vanished]
    split
    · rw [List.map_cons, List.map_cons, ih, hb.id]
    · exact ih

namespace Simulation

variable {move : Move} {p q : Pattern} {ρ : NodeId → NodeId → Prop} {s s' : Simulation}
  {b b' : Bullet} {id : BulletId} {dt scale : Float32} {n i : Nat}

section Frame

theorem tickFrom_of_none (h : (tickFrom scale n i s).pool.idAt? (i + n) = none) :
    tickFrom scale (n + 1) i s = tickFrom scale n i s := by
  induction n generalizing i s with
  | zero =>
    have hi : s.pool.idAt? i = none := h
    simp only [tickFrom, hi]
  | succ n ih =>
    rw [tickFrom] at h ⊢
    rw [tickFrom]
    cases hi : s.pool.idAt? i with
    | none => rfl
    | some id =>
      simp only [hi] at h ⊢
      rw [← Nat.add_assoc, Nat.add_right_comm] at h
      exact ih h

theorem turnAt?_of_get? (hi : (tickFrom scale i 0 s).pool.idAt? i = some id)
    (hb : (tickFrom scale i 0 s).pool.get? id = some b) (hv : b.vanished = false) :
    s.turnAt? scale i = some ((tickFrom scale i 0 s).turnOf id b) := by
  unfold turnAt?
  generalize tickFrom scale i 0 s = m at hi hb ⊢
  have ht : m.pool.take id = (some b, (m.pool.take id).2) := congrArg (·, _) hb
  simp only [hi, Option.bind_eq_bind, Option.bind_some]
  rw [ht]
  simp only [hv]
  rfl

/-- No turn that bullets of the pattern have in the first frames is stopped for want of levels. -/
def Nourishes (s : Simulation) (p : Pattern) (scale : Float32) (n : Nat) : Prop :=
  ∀ i < n, ∀ t, s.turnAt? scale i = some t → t.bullet.pattern = some p → t.isStarved = false

theorem Paired.tickFrom (hr : Pattern.Recasts move p q ρ) (h : Paired p q ρ s s')
    (hf : s.Nourishes p (dt * referenceFps) n)
    (hw : (tickFrom (dt * referenceFps) n 0 s).tasks.NoWrap)
    (hw' : (tickFrom (dt * referenceFps) n 0 s').tasks.NoWrap) :
    Paired p q ρ (tickFrom (dt * referenceFps) n 0 s) (tickFrom (dt * referenceFps) n 0 s') := by
  induction n with
  | zero => exact h
  | succ n ih =>
    have hstep := evolves_tickFrom_of_le h.serves.1 (dt * referenceFps) (Nat.le_succ n) 0
    have hstep' := evolves_tickFrom_of_le h.serves'.1 (dt * referenceFps) (Nat.le_succ n) 0
    have hpaired := ih (fun i hi => hf i (Nat.lt_succ_of_lt hi)) (hstep.grows.noWrap hw)
      (hstep'.grows.noWrap hw')
    have horder : (Simulation.tickFrom (dt * referenceFps) n 0 s').pool.idAt? n =
        (Simulation.tickFrom (dt * referenceFps) n 0 s).pool.idAt? n := by
      rw [Pool.idAt?, Pool.idAt?, hpaired.pool.order]
    cases hi : (Simulation.tickFrom (dt * referenceFps) n 0 s).pool.idAt? n with
    | none =>
      rw [hi] at horder
      rw [tickFrom_of_none (by rw [Nat.zero_add, hi]),
        tickFrom_of_none (by rw [Nat.zero_add, horder])]
      exact hpaired
    | some id =>
      rw [hi] at horder
      rw [tickFrom_succ (by rw [Nat.zero_add, hi])] at hw ⊢
      rw [tickFrom_succ (by rw [Nat.zero_add, horder])] at hw' ⊢
      apply hpaired.tick hr id _ hw hw'
      intro b hb hv hp
      exact hf n (Nat.lt_succ_self n) _ (turnAt?_of_get? hi hb hv) hp

end Frame

section Vanish

theorem vanish_of_none (h : (s.pool.remove id).1 = none) :
    (s.vanish id).2 = { s with pool := (s.pool.remove id).2 } := by
  have hremove : s.pool.remove id = (none, (s.pool.remove id).2) := congrArg (·, _) h
  rw [vanish, hremove]

theorem vanish_of_some (h : (s.pool.remove id).1 = some b) :
    (s.vanish id).2 = { s with
      pool := (s.pool.remove id).2
      tasks := s.tasks.releaseAll b.tasks
      context := s.context.countRecycled } := by
  have hremove : s.pool.remove id = (some b, (s.pool.remove id).2) := congrArg (·, _) h
  rw [vanish, hremove]

theorem Paired.vanish (h : Paired p q ρ s s') (id : BulletId) :
    Paired p q ρ (s.vanish id).2 (s'.vanish id).2 := by
  obtain ⟨hremoved, hpool⟩ := h.pool.remove id
  cases hb : (s.pool.remove id).1 with
  | none =>
    rw [hb] at hremoved
    cases hb' : (s'.pool.remove id).1 with
    | some b' =>
      rw [hb'] at hremoved
      cases hremoved
    | none =>
      rw [vanish_of_none hb, vanish_of_none hb']
      exact ⟨hpool, h.serves.subperm (Pool.occupants_remove_subperm _ _),
        h.serves'.subperm (Pool.occupants_remove_subperm _ _), h.context, h.alike⟩
  | some b =>
    rw [hb] at hremoved
    cases hb' : (s'.pool.remove id).1 with
    | none =>
      rw [hb'] at hremoved
      cases hremoved
    | some b' =>
      obtain ⟨hserves, hkeeps⟩ := (h.serves.perm (Pool.occupants_remove hb)).releaseAll
      obtain ⟨hserves', hkeeps'⟩ := (h.serves'.perm (Pool.occupants_remove hb')).releaseAll
      rw [vanish_of_some hb, vanish_of_some hb']
      refine ⟨hpool.imp ?_, hserves, hserves', congrArg Context.countRecycled h.context, h.alike⟩
      exact fun _ hc _ hc' htwin => htwin.keeps hkeeps hkeeps' hc hc'

theorem Paired.vanishAll (h : Paired p q ρ s s') (ids : List BulletId) :
    Paired p q ρ (s.vanishAll ids) (s'.vanishAll ids) := by
  induction ids generalizing s s' with
  | nil => exact h
  | cons id ids ih => exact ih (h.vanish id)

/-- The same bullets have vanished, and are recycled. -/
theorem Paired.sweep (h : Paired p q ρ s s') : Paired p q ρ s.sweep s'.sweep := by
  unfold Simulation.sweep
  rw [bullets, bullets, Twin.vanished_ids h.pool.bullets]
  exact h.vanishAll _

theorem Paired.evict (h : Paired p q ρ s s') (excess : Nat) :
    Paired p q ρ (evict excess s) (Simulation.evict excess s') := by
  induction excess generalizing s s' with
  | zero => exact h
  | succ excess ih =>
    rw [Simulation.evict, Simulation.evict, Pool.idAt?, Pool.idAt?, h.pool.order]
    cases s.pool.order[0]? with
    | none => exact h
    | some id => exact ih (h.vanish id)

theorem Paired.size (h : Paired p q ρ s s') : s'.size = s.size := by
  rw [Simulation.size, Simulation.size, Pool.size, Pool.size, h.pool.order]

theorem Paired.setCapacity (h : Paired p q ρ s s') (capacity : Nat) :
    Paired p q ρ (s.setCapacity capacity) (s'.setCapacity capacity) := by
  unfold Simulation.setCapacity
  rw [h.size]
  apply Paired.evict
  exact ⟨⟨h.pool.store, h.pool.order, rfl⟩, h.serves, h.serves', h.context, h.alike⟩

end Vanish

/-- Both pools are full, or both have given the same slot to a new bullet. -/
theorem Paired.created (h : Paired p q ρ s s') :
    (s.pool.create = (none, s.pool) ∧ s'.pool.create = (none, s'.pool)) ∨
    ∃ id pool pool', s.pool.create = (some id, pool) ∧ s'.pool.create = (some id, pool') ∧
      Paired p q ρ ({ s with pool } : Simulation) ({ s' with pool := pool' } : Simulation) := by
  obtain ⟨hid, hpool⟩ := h.pool.create fun _ => .bare rfl
  rcases hc : s.pool.create with ⟨_ | id, pool⟩
  · rcases hc' : s'.pool.create with ⟨_ | id', pool'⟩
    · cases Pool.create_of_full hc
      cases Pool.create_of_full hc'
      exact .inl ⟨rfl, rfl⟩
    · rw [hc, hc'] at hid
      cases hid
  · rcases hc' : s'.pool.create with ⟨_ | id', pool'⟩
    · rw [hc, hc'] at hid
      cases hid
    · rw [hc, hc'] at hid hpool
      obtain rfl : id' = id := Option.some.inj hid
      have hserves := (h.serves.bare (b := .atRest id') rfl).subperm (Pool.occupants_create hc)
      have hserves' := (h.serves'.bare (b := .atRest id') rfl).subperm (Pool.occupants_create hc')
      exact .inr ⟨id', pool, pool', rfl, rfl, hpool, hserves, hserves', h.context, h.alike⟩

section Spawn

variable {a a' : Arena} {bs : List Bullet} {r r' : Random} {roots : List TaskId} {binder : Binder}
  {nodes : List NodeId} {e : PatternError}

/-- The tasks that are bound for a bullet are its own. -/
theorem serves_bound (h : a.Serves bs)
    (hx : binder.bindRoots none [] nodes [] ⟨a, r⟩ = .ok roots ⟨a', r'⟩) (hw : a'.NoWrap)
    (hb : b.tasks = roots) : a'.Serves (b :: bs) ∧ a.Keeps a' bs := by
  have hs := h.1
  apply Arena.Serves.replace [] [b] _ h
  intro X hX
  cases hX
  obtain ⟨trees, Y, hrep, hholds, hfit⟩ :=
    Binder.bindRoots_ok (g := False) hs hx nofun fun _ _ hf => hf.elim
  have hdrives : b.Drives False (fun _ => True) a' Y := by
    refine ⟨hb ▸ hholds.spans, hb ▸ fun c hc => hholds.contains hc, ?_, nofun, nofun⟩
    intro id hid task ht
    exact ⟨nofun, (hfit id hid task ht).held⟩
  exact ⟨Y, hrep, .single hdrives, .inl hw⟩

theorem serves_unbound (h : a.Serves bs)
    (hx : binder.bindRoots none [] nodes [] ⟨a, r⟩ = .error e ⟨a', r'⟩) :
    a'.Serves bs ∧ a.Keeps a' bs := by
  have hs := h.1
  apply Arena.Serves.replace [] [] _ h
  intro X hX
  cases hX
  obtain ⟨hrep, _⟩ := Binder.bindRoots_error (g := False) hs hx nofun fun _ _ hf => hf.elim
  exact ⟨∅, hrep, .nil, .inr rfl⟩

/-- The roots of a pattern on an emitter that was just put at `pos`. -/
def opening (p : Pattern) (rank : Float32) (pos : Point) : Expansion (List TaskTree) :=
  Binder.expandChildren ((⟨p, rank, (Motion.rest pos).bullet⟩ : Binder).expandNode
    (maxNestDepth + 1)) [] p.topActions

/-- Both patterns start with roots that are kindred, unless the first one is nested too deep. -/
def OpensAlike (p q : Pattern) (ρ : NodeId → NodeId → Prop) (u v : Pattern) : Prop :=
  (v.topActions.isEmpty = u.topActions.isEmpty) ∧ ∀ rank pos r,
    Echo Eq (fun _ ts us => Kin p q ρ (some u) (some v) (TaskTree.freshAll ts)
      (TaskTree.freshAll us)) (opening u rank pos r) (opening v rank pos r)

theorem opensAlike_self (u : Pattern) : OpensAlike p q ρ u u := by
  refine ⟨rfl, fun rank pos r => (Echo.self _ r).imp ?_⟩
  rintro ts _ _ rfl
  exact .same _ _

theorem opensAlike_recast (hr : Pattern.Recasts move p q ρ) : OpensAlike p q ρ p q := by
  constructor
  · have hlength := hr.topActions.length_eq
    rw [Bool.eq_iff_iff, List.isEmpty_iff_length_eq_zero, List.isEmpty_iff_length_eq_zero, hlength]
  · intro rank pos r
    exact (Binder.echo_roots hr hr.topActions rank _ [] r).imp fun _ _ _ hs => .recast hs

theorem binds_opening (hs : a.Sound) (u : Pattern) (rank : Float32) (pos : Point) (id : BulletId)
    (r : Random) : Binder.BindsRoots none [] ∅ ⟨a, r⟩
      ((⟨u, rank, { Bullet.atRest id with pos, pattern := some u }⟩ : Binder).bindRoots none []
        u.topActions [] ⟨a, r⟩) (opening u rank pos r) := by
  have hsame : (⟨u, rank, { Bullet.atRest id with pos, pattern := some u }⟩ : Binder).expandNode
      (maxNestDepth + 1) = (⟨u, rank, (Motion.rest pos).bullet⟩ : Binder).expandNode
        (maxNestDepth + 1) := Binder.expandNode_motion ..
  rw [opening, ← hsame]
  exact Binder.binds_roots u.topActions hs .nil

theorem activate_of_ok {u : Pattern}
    (hx : (⟨u, s.context.rank, b⟩ : Binder).bindRoots none [] u.topActions []
      ⟨s.tasks, s.context.random⟩ = .ok roots ⟨a, r⟩) :
    s.activate u b = (.ok (some b.id), { s with
      pool := s.pool.place { b with tasks := roots }
      tasks := a
      context := { s.context with random := r } }) := by
  simp only [activate, hx]

theorem activate_of_error {u : Pattern}
    (hx : (⟨u, s.context.rank, b⟩ : Binder).bindRoots none [] u.topActions []
      ⟨s.tasks, s.context.random⟩ = .error e ⟨a, r⟩) :
    s.activate u b = (.error e, { s with
      pool := (s.pool.remove b.id).2
      tasks := a
      context := { s.context with random := r }
      notices := s.notices.push (.activationFailed u.name e) }) := by
  simp only [activate, hx]

/-- Where neither pattern can be bound, the slot is given back. -/
theorem Paired.activate_failed {u v : Pattern} {e' : PatternError} (h : Paired p q ρ s s')
    (hid : b'.id = b.id)
    (hx : (⟨u, s.context.rank, b⟩ : Binder).bindRoots none [] u.topActions []
      ⟨s.tasks, s.context.random⟩ = .error e ⟨a, r⟩)
    (hy : (⟨v, s'.context.rank, b'⟩ : Binder).bindRoots none [] v.topActions []
      ⟨s'.tasks, s'.context.random⟩ = .error e' ⟨a', r⟩) :
    Paired p q ρ (s.activate u b).2 (s'.activate v b').2 := by
  rw [activate_of_error hx, activate_of_error hy]
  obtain ⟨hserves, hkeeps⟩ := serves_unbound h.serves hx
  obtain ⟨hserves', hkeeps'⟩ := serves_unbound h.serves' hy
  have hpool := h.pool.imp fun _ hc _ hc' ht => ht.keeps hkeeps hkeeps' hc hc'
  refine ⟨hid ▸ (hpool.remove b.id).2, hserves.subperm (Pool.occupants_remove_subperm _ _),
    hserves'.subperm (Pool.occupants_remove_subperm _ _), ?_, h.alike⟩
  rw [h.context]

theorem Paired.activate {u v : Pattern} (hx : OpensAlike p q ρ u v) (h : Paired p q ρ s s')
    (id : BulletId) (pos : Point)
    (hl : u = v ∨ ∀ n, (s.activate u { Bullet.atRest id with pos, pattern := some u }).1 ≠
      .error (.recursionLimit n))
    (hw : (s.activate u { Bullet.atRest id with pos, pattern := some u }).2.tasks.NoWrap)
    (hw' : (s'.activate v { Bullet.atRest id with pos, pattern := some v }).2.tasks.NoWrap) :
    Paired p q ρ (s.activate u { Bullet.atRest id with pos, pattern := some u }).2
      (s'.activate v { Bullet.atRest id with pos, pattern := some v }).2 := by
  have hecho := hx.2 s.context.rank pos s.context.random
  have hbind := binds_opening h.serves.1 u s.context.rank pos id s.context.random
  have hbind' := binds_opening h.serves'.1 v s'.context.rank pos id s'.context.random
  rw [h.context] at hbind'
  have hsame : u = v → opening v s.context.rank pos s.context.random =
      opening u s.context.rank pos s.context.random := by
    rintro rfl
    rfl
  generalize opening u s.context.rank pos s.context.random = x at hecho hbind hsame
  generalize opening v s.context.rank pos s.context.random = y at hecho hbind' hsame
  generalize hbound : Binder.bindRoots _ _ _ _ _ _ = m at hbind
  generalize hbound' : Binder.bindRoots _ _ _ _ _ _ = m' at hbind'
  rw [← h.context] at hbound'
  cases hecho with
  | ok he hkin =>
    subst he
    cases hbind with
    | @ok roots _ _ _ _ _ hholds =>
      cases hbind' with
      | @ok roots' _ _ _ _ _ hholds' =>
        rw [activate_of_ok hbound] at hw ⊢
        rw [activate_of_ok hbound'] at hw' ⊢
        obtain ⟨hserves, hkeeps⟩ := serves_bound h.serves hbound hw
          (b := { Bullet.atRest id with pos, pattern := some u, tasks := roots }) rfl
        obtain ⟨hserves', hkeeps'⟩ := serves_bound h.serves' hbound' hw'
          (b := { Bullet.atRest id with pos, pattern := some v, tasks := roots' }) rfl
        have hpool := h.pool.imp fun _ hc _ hc' ht => ht.keeps hkeeps hkeeps' hc hc'
        refine ⟨hpool.place ⟨rfl, rfl, .inr ?_⟩ rfl, hserves.subperm (Pool.occupants_place _ _),
          hserves'.subperm (Pool.occupants_place _ _), ?_, h.alike⟩
        · exact ⟨_, _, hholds.shows, hholds'.shows, hkin⟩
        · rw [h.context]
  | error he =>
    subst he
    cases hbind with
    | error =>
      cases hbind' with
      | error => exact h.activate_failed rfl hbound hbound'
  | limit =>
    cases hbind with
    | error =>
      rcases hl with rfl | hl
      · cases hsame rfl
        cases hbind' with
        | error => exact h.activate_failed rfl hbound hbound'
      · rw [activate_of_error hbound] at hl
        exact absurd rfl (hl _)

/-- Both patterns are started at the same point. -/
theorem Paired.spawn {u v : Pattern} (hx : OpensAlike p q ρ u v) (h : Paired p q ρ s s')
    (pos : Point) (hl : u = v ∨ ∀ n, (s.spawn u pos).1 ≠ .error (.recursionLimit n))
    (hw : (s.spawn u pos).2.tasks.NoWrap) (hw' : (s'.spawn v pos).2.tasks.NoWrap) :
    Paired p q ρ (s.spawn u pos).2 (s'.spawn v pos).2 := by
  unfold Simulation.spawn at hl hw hw' ⊢
  rw [hx.1] at hw' ⊢
  split
  · exact h
  · rename_i htops
    simp only [htops] at hl hw hw'
    rcases h.created with ⟨hc, hc'⟩ | ⟨id, pool, pool', hc, hc', hcreated⟩
    · simp only [hc, hc']
      exact ⟨h.pool, h.serves, h.serves', congrArg Context.countDropped h.context, h.alike⟩
    · simp only [hc] at hl hw ⊢
      simp only [hc'] at hw' ⊢
      have hpaired : Paired p q ρ ({ s with pool := (pool.take id).2 } : Simulation)
          ({ s' with pool := (pool'.take id).2 } : Simulation) :=
        ⟨hcreated.pool.take id, hcreated.serves.subperm (Pool.occupants_vacate _ _),
          hcreated.serves'.subperm (Pool.occupants_vacate _ _), h.context, h.alike⟩
      exact hpaired.activate hx id pos hl hw hw'

end Spawn

section Edit

theorem serves_modify {a : Arena} {pool : Pool} {f : Bullet → Bullet}
    (h : a.Serves pool.occupants) (hf : ∀ b, (f b).tasks = b.tasks) (id : BulletId) :
    a.Serves (pool.modify id f).occupants := by
  cases hb : pool.get? id with
  | none =>
    have hsame : (pool.modify id f).occupants.Perm pool.occupants :=
      Store.occupants_of_none hb fun slot hn => by rw [hn]; rfl
    exact h.perm hsame.symm
  | some b =>
    have hself := (h.perm (Pool.occupants_take hb)).congr_head (hf b)
    exact hself.perm (Store.occupants_modify hb f).symm

theorem Paired.modifyBullet {f : Bullet → Bullet} (h : Paired p q ρ s s') (hf : Bullet.Edits f)
    (id : BulletId) : Paired p q ρ (s.modifyBullet id f) (s'.modifyBullet id f) := by
  refine ⟨h.pool.modify ?_ id, serves_modify h.serves hf.tasks id,
    serves_modify h.serves' hf.tasks id, h.context, h.alike⟩
  intro b b' ht
  refine ⟨by rw [hf.id, hf.id, ht.id], hf.motion b b' ht.id ht.motion, ?_⟩
  rw [hf.tasks, hf.tasks, hf.pattern, hf.pattern]
  exact ht.kin.imp_left (hf.vanished b)

theorem Paired.create (h : Paired p q ρ s s') (pos : Point) (direction speed : Float32) :
    Paired p q ρ (s.create pos direction speed).2 (s'.create pos direction speed).2 := by
  have hedits : Bullet.Edits fun b => { b with pos, direction, speed } := by
    refine ⟨fun _ => rfl, fun _ => rfl, fun _ => rfl, ?_, fun _ hv => hv⟩
    intro b b' _ hm
    simp only [Bullet.motion, Motion.mk.injEq] at hm ⊢
    exact ⟨trivial, trivial, trivial, hm.2.2.2⟩
  unfold Simulation.create
  rcases h.created with ⟨hc, hc'⟩ | ⟨id, pool, pool', hc, hc', hcreated⟩
  · simp only [hc, hc']
    exact h
  · simp only [hc, hc']
    exact hcreated.modifyBullet hedits id

end Edit

end Simulation
end Barrage

import Barrage.Proofs.Acting
import Barrage.Proofs.Performance
import Barrage.Proofs.Spares

namespace Barrage

namespace Turn

variable {p : Pattern} {fuel : Nat} {job : Job} {t t' : Turn} {calls : List Call} {id : TaskId}
  {task : Task} {r : Except PatternError Status} {σ : Stage}
  {x : EStateM.Result PatternError Stage (List WorkTree)}

/-- What the bullet has left to run is what the play has left. -/
theorem Closes.left (h : Closes p t σ [] t' x) :
    t'.tasks.Shows t'.bullet.tasks (Play.left x) ∧ Enacts t σ t' (Play.stage x) := by
  cases h with
  | ok hs he _ => exact ⟨hs, he⟩
  | error hb he =>
    rw [hb]
    exact ⟨.nil, he⟩

end Turn

namespace Simulation

/-- The conditions for a frame of `dt` seconds. -/
def conditions (s : Simulation) (dt : Float32) : Conditions :=
  ⟨s.context.rank, s.context.target, s.cull, s.cullMargin, dt⟩

/-- The bullet of a handle runs the pattern as the actor does. -/
def Embodies (s : Simulation) (p : Pattern) (id : BulletId) (a : Actor) : Prop :=
  ∃ b, s.get? id = some b ∧ b.pattern = some p ∧ b.motion = a.motion ∧
    s.tasks.Shows b.tasks a.roots

/-- The bullets of some handles run the pattern as these actors do. -/
def Casts (s : Simulation) (p : Pattern) (ids : List BulletId) (actors : List Actor) : Prop :=
  List.Forall₂ (s.Embodies p) ids actors

/-- The bullets that members of a family fire in the frames of `ids`, in order. -/
def offspring (scale : Float32) (family : List BulletId) :
    List BulletId → Simulation → List BulletId
  | [], _ => []
  | id :: ids, s =>
    let s' := s.tick scale id
    (if id ∈ family then s'.pool.ids.drop s.pool.ids.length else []) ++
      offspring scale family ids s'

/-- In the frames of `ids`, no bullet that a member of the family fires is dropped. -/
def Undropped (scale : Float32) (family : List BulletId) : List BulletId → Simulation → Prop
  | [], _ => True
  | id :: ids, s =>
    (id ∈ family →
      (s.tick scale id).context.stats.dropped = s.context.stats.dropped) ∧
      Undropped scale family ids (s.tick scale id)

instance decidableUndropped (scale : Float32) (family : List BulletId) :
    (ids : List BulletId) → (s : Simulation) → Decidable (Undropped scale family ids s)
  | [], _ => isTrue trivial
  | id :: ids, s =>
    have := decidableUndropped scale family ids (s.tick scale id)
    inferInstanceAs (Decidable (_ ∧ _))

variable {Q : Pattern → Prop} {p : Pattern} {s s' : Simulation} {id k : BulletId} {b : Bullet}
  {a : Actor} {as cast : List Actor} {scale dt : Float32} {ids family : List BulletId}

section Conditions

theorem conditions_tick (s : Simulation) (scale dt : Float32) (id : BulletId) :
    (s.tick scale id).conditions dt = s.conditions dt := by
  unfold tick
  rcases s.pool.take id with ⟨_ | b, pool⟩
  · rfl
  · simp only
    split
    · rfl
    · have h := Turn.context_runTasks ⟨b, s.tasks, pool, s.context, s.notices⟩
      exact congrArg₂ (Conditions.mk · · s.cull s.cullMargin dt) h.rank h.target

theorem motion_flown (s : Simulation) (dt : Float32) (b : Bullet) :
    (s.flown (dt * referenceFps) b).motion = (s.conditions dt).fly b.motion := by
  have hfly : (s.conditions dt).fly b.motion =
      { (b.move (dt * referenceFps)).motion with
        vanished := b.vanished || s.isOutside (b.move (dt * referenceFps)) } := rfl
  rw [hfly]
  unfold flown
  cases s.isOutside (b.move (dt * referenceFps)) with
  | true =>
    rw [Bool.or_true]
    rfl
  | false =>
    rw [Bool.or_false]
    rfl

end Conditions

section Embodies

theorem Embodies.spared (h : s.Embodies p id a) (hs : s.Spares s' id) : s'.Embodies p id a := by
  obtain ⟨b, hb, hp, hm, hw⟩ := h
  exact ⟨b, hs.get?.trans hb, hp, hm, hs.shows b _ hb hw⟩

theorem Casts.spared (h : s.Casts p ids as) (hs : ∀ k ∈ ids, s.Spares s' k) :
    s'.Casts p ids as := by
  have hboth := (List.forall₂_and_left ids as).2 ⟨hs, h⟩
  exact hboth.imp fun _ _ hk => hk.2.spared hk.1

end Embodies

section Tick

/-- The frame of a bullet ends its turn, whether or not it has run any tasks. -/
theorem Orderly.ends_tick (h : s.Orderly False Q) (hb : s.get? b.id = some b)
    (hw : (s.tick scale b.id).tasks.NoWrap) :
    ∃ t X X' N shots, s.tick scale b.id = (s.after t).settle scale t.bullet ∧
      s.tasks.Spans b.tasks X ∧ Turn.Ends False b.program (s.turn b) t X X' N shots := by
  obtain ⟨X, hd, hpoised⟩ := h.poised hb
  cases hv : b.vanished with
  | true => exact ⟨s.turn b, X, X, ∅, [], tick_drifts hb hv, hd.spans, .refl hpoised⟩
  | false =>
    rw [tick_plays hb hv] at hw ⊢
    obtain ⟨calls, hp⟩ := Turn.plays_runTasks (s.turn b)
    generalize (s.turn b).runTasks = t at hp hw
    cases hp with
    | idle => exact ⟨_, X, X, ∅, [], rfl, hd.spans, .refl hpoised⟩
    | runs hsome hr =>
      cases Bullet.program_of_some hsome
      obtain ⟨X', N, shots, he, _⟩ := hr.outcome nofun hpoised hw
      exact ⟨t, X, X', N, shots, rfl, hd.spans, he⟩

theorem Orderly.spares_tick (h : s.Orderly False Q) (hid : id ∈ s.pool.ids) (hk : k ∈ s.pool.ids)
    (hne : k ≠ id) (hw : (s.tick scale id).tasks.NoWrap) : s.Spares (s.tick scale id) k := by
  obtain ⟨b, hb⟩ := h.find hid
  obtain rfl : b.id = id := (h.pool.listed id b hb).2
  obtain ⟨t, X, X', N, shots, htick, hX, he⟩ := h.ends_tick hb hw
  rw [htick] at hw ⊢
  have hreturns : s.pool.Returns ((s.after t).settle scale t.bullet).pool _ _ :=
    returns_of_ends hid he
  have hself : ((s.after t).flown scale t.bullet).id = b.id := flown_id.trans he.alike.id
  refine ⟨hreturns.others k hk (hself ▸ hne), ?_⟩
  intro b' ws hb' hs
  obtain ⟨X₁, Y, hX₁, hY, hd⟩ := h.apart hb hb' hne
  obtain rfl := hX.unique hX₁
  exact hs.apart hY he.replaces hd hw

/-- A member of a family that has had its turn is as its actor is after its flight. -/
theorem embodies_settle {t : Turn} {X X' N : Finset TaskId} {shots : List Bullet}
    {ws : List WorkTree} (hid : b.id ∈ s.pool.ids) (hp : b.pattern = some p)
    (he : Turn.Ends False b.program (s.turn b) t X X' N shots)
    (hs : t.tasks.Shows t.bullet.tasks ws) :
    ((s.after t).settle (dt * referenceFps) t.bullet).Embodies p b.id
      ⟨(s.conditions dt).fly t.bullet.motion, ws⟩ := by
  have hself : ((s.after t).flown (dt * referenceFps) t.bullet).id = b.id :=
    flown_id.trans he.alike.id
  refine ⟨_, hself ▸ (returns_of_ends hid he).placed, ?_, motion_flown _ dt _, ?_⟩
  · rw [flown_pattern, he.alike.pattern]
    exact hp
  · rw [flown_tasks]
    exact hs

theorem embodies_shots {t : Turn} {X X' N : Finset TaskId} {shots : List Bullet}
    (hid : b.id ∈ s.pool.ids) (hp : b.pattern = some p)
    (he : Turn.Ends False b.program (s.turn b) t X X' N shots) (hc : t.tasks.Casts shots cast) :
    ((s.after t).settle scale t.bullet).Casts p
      (((s.after t).settle scale t.bullet).pool.ids.drop s.pool.ids.length) cast := by
  have hreturns : s.pool.Returns ((s.after t).settle scale t.bullet).pool _ _ :=
    returns_of_ends hid he
  rw [Simulation.Casts, hreturns.ids, List.drop_left, List.forall₂_map_left_iff]
  have hboth := (List.forall₂_and_left shots cast).2 ⟨fun _ hm => hm, hc⟩
  apply hboth.imp
  rintro shot actor ⟨hm, hmotion, hs⟩
  exact ⟨shot, hreturns.added shot hm, (he.launched shot hm).pattern.trans hp, hmotion, hs⟩

/-- A bullet that has vanished only flies on in its frame. -/
theorem Orderly.drifted_tick {ws : List WorkTree} (h : s.Orderly False Q)
    (hb : s.get? b.id = some b) (hp : b.pattern = some p) (hv : b.vanished = true)
    (hs : s.tasks.Shows b.tasks ws) (dt : Float32) :
    (s.tick (dt * referenceFps) b.id).Embodies p b.id ⟨(s.conditions dt).fly b.motion, ws⟩ ∧
      (s.tick (dt * referenceFps) b.id).Casts p
        ((s.tick (dt * referenceFps) b.id).pool.ids.drop s.pool.ids.length) [] := by
  obtain ⟨hid, _⟩ := h.pool.listed b.id b hb
  obtain ⟨X, _, hpoised⟩ := h.poised hb
  have he : Turn.Ends False b.program (s.turn b) (s.turn b) X X ∅ [] := .refl hpoised
  rw [tick_drifts hb hv]
  exact ⟨embodies_settle hid hp he hs, embodies_shots hid hp he .nil⟩

/-- The stage on which a bullet has its turn. -/
def stage (s : Simulation) (b : Bullet) : Stage :=
  ⟨b.motion, s.context, (s.turn b).pool.room, []⟩

/-- In the frame of `b`, the simulation has become what the play `x` of its trees makes of it. Only
a fault is told. -/
structure Staged (p : Pattern) (dt : Float32) (s : Simulation) (b : Bullet)
    (x : EStateM.Result PatternError Stage (List WorkTree)) (s' : Simulation) : Prop where
  context : s'.context = (Play.stage x).context
  actor : s'.Embodies p b.id ⟨(s.conditions dt).fly (Play.stage x).motion, Play.left x⟩
  cast : s'.Casts p (s'.pool.ids.drop s.pool.ids.length) (Play.stage x).cast
  notices : ∀ ws σ, x = .ok ws σ → Notice.Added Notice.IsClamp s.notices s'.notices

/-- What a bullet does in its frame is what its trees play. -/
theorem Orderly.staged_tick {ws : List WorkTree} (h : s.Orderly False Q)
    (hb : s.get? b.id = some b) (hp : b.pattern = some p) (hv : b.vanished = false)
    (hs : s.tasks.Shows b.tasks ws) (hw : (s.tick (dt * referenceFps) b.id).tasks.NoWrap) :
    Staged p dt s b (Play.roots p ws (s.stage b)) (s.tick (dt * referenceFps) b.id) := by
  obtain ⟨hid, _⟩ := h.pool.listed b.id b hb
  obtain ⟨X, _, hpoised⟩ := h.poised hb
  cases Bullet.program_of_some hp
  have hrun : (s.turn b).runTasks = Turn.runRoots b.program [] b.tasks (s.turn b) := by
    rw [Turn.runTasks, show (s.turn b).bullet.pattern = some b.program from hp]
    rfl
  rw [tick_plays hb hv, hrun] at hw ⊢
  have hdepicts : (s.stage b).Depicts (s.turn b) := ⟨rfl, rfl, rfl⟩
  rw [← List.nil_append b.tasks] at hpoised
  have hcloses := Turn.closes_runRoots hpoised .nil hs hdepicts hw
  obtain ⟨X', N, shots, he⟩ := hpoised.ranRoots hw
  generalize Play.roots b.program ws _ = x at hcloses
  obtain ⟨hleft, henacts⟩ := hcloses.left
  obtain ⟨actors, hcast, hc⟩ := henacts.cast
  rw [he.adds.newcomers] at hc
  refine ⟨henacts.depicts.context.symm, ?_, ?_, ?_⟩
  · rw [henacts.depicts.motion]
    exact embodies_settle hid hp he hleft
  · rw [hcast]
    exact embodies_shots hid hp he hc
  · rintro _ _ rfl
    cases hcloses with
    | ok _ _ hn => exact hn

/-- What a member of a family does in its frame is what its actor does. -/
theorem Orderly.acts_tick (h : s.Orderly False Q) (ha : s.Embodies p id a)
    (hw : (s.tick (dt * referenceFps) id).tasks.NoWrap)
    (hd : (s.tick (dt * referenceFps) id).context.stats.dropped = s.context.stats.dropped) :
    ∃ a' cast, a.Acts p (s.conditions dt) a' cast ∧
      (s.tick (dt * referenceFps) id).Embodies p id a' ∧
      (s.tick (dt * referenceFps) id).Casts p
        ((s.tick (dt * referenceFps) id).pool.ids.drop s.pool.ids.length) cast := by
  obtain ⟨b, hb, hp, hm, hs⟩ := ha
  obtain ⟨_, rfl⟩ := h.pool.listed id b hb
  cases hv : b.vanished with
  | true =>
    obtain ⟨hself, hcast⟩ := h.drifted_tick hb hp hv hs dt
    rw [hm] at hself
    exact ⟨_, _, .drifts (hm ▸ hv), hself, hcast⟩
  | false =>
    have hx := h.staged_tick hb hp hv hs hw
    refine ⟨_, _, .plays (hm ▸ hv) hm rfl rfl rfl rfl ?_, hx.actor, hx.cast⟩
    rw [Stage.dropped, ← hx.context]
    exact hd

end Tick

section TickAll

/-- What is known after the first of some frames, in which `born` were fired. -/
structure Begun (Q : Pattern → Prop) (scale : Float32) (s : Simulation) (id : BulletId)
    (ids born : List BulletId) : Prop where
  noWrap : (s.tick scale id).tasks.NoWrap
  orderly : (s.tick scale id).Orderly False Q
  order : (s.tick scale id).pool.ids = s.pool.ids ++ born
  fresh : ∀ k ∈ s.pool.ids, k ∉ born
  rest : ∀ k ∈ ids, k ∈ s.pool.ids

theorem Orderly.begun (h : s.Orderly False Q) (hm : ∀ k ∈ id :: ids, k ∈ s.pool.ids)
    (hw : (s.tickAll scale (id :: ids)).tasks.NoWrap) : ∃ born, Begun Q scale s id ids born := by
  have hw₁ := (evolves_tickAll (evolves_tick h.arena scale id).sound scale ids).grows.noWrap hw
  obtain ⟨_, shots, ht, _⟩ := h.tick nofun (hm id List.mem_cons_self) hw₁
  have hnodup := ht.orderly.pool.nodup
  rw [ht.ids] at hnodup
  refine ⟨_, hw₁, ht.orderly, ht.ids, ?_, fun k hk => hm k (List.mem_cons_of_mem _ hk)⟩
  exact fun k hk hin => (List.nodup_append.1 hnodup).2.2 k hk k hin rfl

theorem Begun.mem {born : List BulletId} (h : Begun Q scale s id ids born) (hk : k ∈ s.pool.ids) :
    k ∈ (s.tick scale id).pool.ids := by
  rw [h.order]
  exact List.mem_append_left _ hk

/-- Bullets whose frame it is not are left alone. -/
theorem Orderly.spares_tickAll (h : s.Orderly False Q) (hm : ∀ id ∈ ids, id ∈ s.pool.ids)
    (hk : k ∈ s.pool.ids) (hn : k ∉ ids) (hw : (s.tickAll scale ids).tasks.NoWrap) :
    s.Spares (s.tickAll scale ids) k := by
  induction ids generalizing s with
  | nil => exact .refl s k
  | cons id ids ih =>
    rw [List.mem_cons, not_or] at hn
    obtain ⟨born, hb⟩ := h.begun hm hw
    apply (h.spares_tick (hm id List.mem_cons_self) hk hn.1 hb.noWrap).trans
    exact ih hb.orderly (fun k hk => hb.mem (hb.rest k hk)) (hb.mem hk) hn.2 hw

/-- What the members of a family do in the frames of some bullets is what their actors do. -/
theorem Orderly.acted_tickAll (h : s.Orderly False Q) (hn : ids.Nodup)
    (hm : ∀ id ∈ ids, id ∈ s.pool.ids) (ha : s.Casts p (ids.filter (· ∈ family)) as)
    (hu : Undropped (dt * referenceFps) family ids s)
    (hw : (s.tickAll (dt * referenceFps) ids).tasks.NoWrap) :
    ∃ as' cast, Acted p (s.conditions dt) as as' cast ∧
      (s.tickAll (dt * referenceFps) ids).Casts p (ids.filter (· ∈ family)) as' ∧
      (s.tickAll (dt * referenceFps) ids).Casts p (offspring (dt * referenceFps) family ids s)
        cast := by
  induction ids generalizing s as with
  | nil =>
    cases ha
    exact ⟨[], [], .nil, .nil, .nil⟩
  | cons id ids ih =>
    obtain ⟨hout, hn⟩ := List.nodup_cons.1 hn
    obtain ⟨hdrop, hu⟩ := hu
    have hid := hm id List.mem_cons_self
    obtain ⟨born, hb⟩ := h.begun hm hw
    have hrest (k) (hk : k ∈ ids) := hb.mem (hb.rest k hk)
    -- The first frame spares the members that are yet to have theirs, and the later frames spare
    -- the first bullet and those that it has fired.
    have hbefore (k) (hk : k ∈ ids.filter (· ∈ family)) :
        s.Spares (s.tick (dt * referenceFps) id) k := by
      have hk := List.mem_of_mem_filter hk
      exact h.spares_tick hid (hb.rest k hk) (ne_of_mem_of_not_mem hk hout) hb.noWrap
    have hafter (k) (hk : k ∈ (s.tick (dt * referenceFps) id).pool.ids) (hn : k ∉ ids) :
        (s.tick (dt * referenceFps) id).Spares (s.tickAll (dt * referenceFps) (id :: ids)) k :=
      hb.orderly.spares_tickAll hrest hk hn hw
    rw [← conditions_tick s (dt * referenceFps) dt id]
    by_cases hf : id ∈ family
    · rw [List.filter_cons_of_pos (by simpa using hf)] at ha ⊢
      rw [offspring, if_pos hf]
      cases ha with
      | cons hhead htail =>
        obtain ⟨a', cast, hacts, hself, hcast⟩ := h.acts_tick hhead hb.noWrap (hdrop hf)
        obtain ⟨as', more, hacted, hall, hmore⟩ :=
          ih hb.orderly hn hrest (Casts.spared htail hbefore) hu hw
        rw [← conditions_tick s (dt * referenceFps) dt id] at hacts
        refine ⟨a' :: as', cast ++ more, .cons hacts hacted, .cons ?_ hall, ?_⟩
        · exact hself.spared (hafter id (hb.mem hid) hout)
        · apply List.rel_append _ hmore
          apply hcast.spared
          intro k hk
          have hin := List.mem_of_mem_drop hk
          rw [hb.order, List.drop_left] at hk
          exact hafter k hin fun hin => hb.fresh k (hb.rest k hin) hk
    · rw [List.filter_cons_of_neg (by simpa using hf)] at ha ⊢
      rw [offspring, if_neg hf]
      exact ih hb.orderly hn hrest (ha.spared hbefore) hu hw

/-- The offspring of a family stand behind all bullets that were there before, in order. -/
theorem Orderly.offspring_sublist (h : s.Orderly False Q) (hm : ∀ id ∈ ids, id ∈ s.pool.ids)
    (hw : (s.tickAll scale ids).tasks.NoWrap) :
    ∃ born, (s.tickAll scale ids).pool.ids = s.pool.ids ++ born ∧
      (offspring scale family ids s).Sublist born := by
  induction ids generalizing s with
  | nil => exact ⟨[], (List.append_nil _).symm, .slnil⟩
  | cons id ids ih =>
    obtain ⟨born, hb⟩ := h.begun hm hw
    obtain ⟨more, hall, hsub⟩ := ih hb.orderly (fun k hk => hb.mem (hb.rest k hk)) hw
    refine ⟨born ++ more, ?_, ?_⟩
    · rw [← List.append_assoc, ← hb.order]
      exact hall
    · rw [offspring]
      apply List.Sublist.append _ hsub
      split
      · rw [hb.order, List.drop_left]
      · exact List.nil_sublist born

end TickAll

section Frame

/-- The bullets that a family consists of once all bullets have had their frame, before those that
have vanished are recycled. -/
def kin (s : Simulation) (dt : Float32) (family : List BulletId) : List BulletId :=
  family ++ offspring (dt * referenceFps) family s.pool.ids { s with frame := s.frame + 1 }

/-- What is left of a family after a frame. -/
def heirs (s : Simulation) (dt : Float32) (family : List BulletId) : List BulletId :=
  (s.kin dt family).filter (· ∈ (s.update dt).pool.ids)

/-- No bullet that a member of the family fires in the frame is dropped. -/
def Unhindered (s : Simulation) (dt : Float32) (family : List BulletId) : Prop :=
  Undropped (dt * referenceFps) family s.pool.ids { s with frame := s.frame + 1 }

instance (s : Simulation) (dt : Float32) (family : List BulletId) :
    Decidable (s.Unhindered dt family) :=
  inferInstanceAs (Decidable (Undropped ..))

theorem filter_mem_of_sublist (h : family.Sublist ids) (hn : ids.Nodup) :
    ids.filter (· ∈ family) = family := by
  have hsub : family.Sublist (ids.filter (· ∈ family)) := by
    have hself : family.filter (· ∈ family) = family := List.filter_eq_self.2 (by simp)
    have hfilter := h.filter (· ∈ family)
    rwa [hself] at hfilter
  have hle : (ids.filter (· ∈ family)).length ≤ family.length := by
    apply (List.subperm_of_subset (hn.filter _) _).length_le
    intro id hid
    simpa using (List.mem_filter.1 hid).2
  exact (hsub.eq_of_length_le hle).symm

theorem Orderly.acted_ticked (h : s.Orderly False Q) (hf : family.Sublist s.pool.ids)
    (ha : s.Casts p family as) (hu : s.Unhindered dt family) (hw : (s.ticked dt).tasks.NoWrap) :
    ∃ as' cast, Acted p (s.conditions dt) as as' cast ∧
      (s.ticked dt).Casts p (s.kin dt family) (as' ++ cast) ∧
      (s.kin dt family).Sublist (s.ticked dt).pool.ids := by
  have hself : s.pool.ids.filter (· ∈ family) = family := filter_mem_of_sublist hf h.pool.nodup
  have hb := h.begin
  have hm (id) (hid : id ∈ s.pool.ids) : id ∈ s.pool.ids := hid
  obtain ⟨as', cast, hacted, hold, hnew⟩ :=
    hb.acted_tickAll h.pool.nodup hm (hself.symm ▸ ha) hu hw
  obtain ⟨born, hids, hsub⟩ := hb.offspring_sublist hm hw
  rw [hself] at hold
  refine ⟨as', cast, hacted, List.rel_append hold hnew, ?_⟩
  rw [ticked, hids]
  exact hf.append hsub

theorem Orderly.spares_sweep (h : s.Orderly False Q) (hv : s.isVanished k = false) :
    s.Spares s.sweep k := by
  have hsub := h.vanished_sublist
  apply h.spares_vanishAll (hsub.nodup h.pool.nodup) fun k hk => hsub.subset hk
  intro hm
  rw [(mem_vanished h.pool).1 hm] at hv
  cases hv

theorem Orderly.mem_sweep (h : s.Orderly False Q) :
    k ∈ s.sweep.pool.ids ↔ k ∈ s.pool.ids ∧ s.isVanished k = false := by
  rw [h.sweep_ids, List.mem_filter, Bool.not_eq_true_eq_eq_false]

/-- The sweep takes away the bullets whose actors have vanished. -/
theorem Orderly.casts_sweep (h : s.Orderly False Q) (hc : s.Casts p ids as) :
    s.sweep.Casts p (ids.filter (· ∈ s.sweep.pool.ids)) (as.filter (!·.motion.vanished)) := by
  have hleft : s.Casts p (ids.filter (· ∈ s.sweep.pool.ids))
      (as.filter (!·.motion.vanished)) := by
    refine List.rel_filter (fun id actor ha => ?_) hc
    obtain ⟨b, hb, _, hm, _⟩ := ha
    have hv : s.isVanished id = actor.motion.vanished := by
      rw [isVanished, hb, ← hm]
      rfl
    simp only [decide_eq_true_eq, h.mem_sweep, hv, Bool.not_eq_true']
    exact and_iff_right (h.pool.listed id b hb).1
  apply hleft.spared
  intro k hk
  apply h.spares_sweep
  exact (h.mem_sweep.1 (of_decide_eq_true (List.mem_filter.1 hk).2)).2

theorem sublist_sweep (hs : ids.Sublist s.pool.ids) :
    (ids.filter (· ∈ s.sweep.pool.ids)).Sublist s.sweep.pool.ids := by
  apply (thins_vanishAll s _).sublist (List.filter_sublist.trans hs)
  intro k hk
  exact of_decide_eq_true (List.mem_filter.1 hk).2

/-- A frame of a family is a frame of its actors, of which those that have vanished are gone. -/
theorem Orderly.acted_update (h : s.Orderly False Q) (hf : family.Sublist s.pool.ids)
    (ha : s.Casts p family as) (hu : s.Unhindered dt family) (hw : (s.update dt).tasks.NoWrap) :
    ∃ as' cast, Acted p (s.conditions dt) as as' cast ∧
      (s.update dt).Casts p (s.heirs dt family) ((as' ++ cast).filter (!·.motion.vanished)) ∧
      (s.heirs dt family).Sublist (s.update dt).pool.ids := by
  obtain ⟨he, hw'⟩ := h.update_eq nofun hw
  obtain ⟨as', cast, hacted, hcasts, hsub⟩ := h.acted_ticked hf ha hu hw'
  obtain ⟨calls, ht⟩ := h.trace nofun hw'
  obtain ⟨shots, hframed⟩ := h.framed nofun hw' ht
  refine ⟨as', cast, hacted, ?_, ?_⟩
  · rw [heirs, he]
    exact hframed.orderly.casts_sweep hcasts
  · rw [heirs, he]
    exact sublist_sweep hsub

end Frame

end Simulation
end Barrage

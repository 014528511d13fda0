import Barrage.Proofs.Depth
import Barrage.Proofs.Housing
import Barrage.Proofs.Reprise

namespace Barrage

/-- What two bullets have left to play: the same trees of the same pattern, or trees that resemble
each other, one of each pattern. -/
inductive Kin (p q : Pattern) (ρ : NodeId → NodeId → Prop) :
    Option Pattern → Option Pattern → List WorkTree → List WorkTree → Prop where
  | same (r : Option Pattern) (ws : List WorkTree) : Kin p q ρ r r ws ws
  | recast {ws vs : List WorkTree} (h : Resembles p q ρ false ws vs) :
      Kin p q ρ (some p) (some q) ws vs

variable {move : Move} {p q : Pattern} {ρ : NodeId → NodeId → Prop} {r r' : Option Pattern}
  {ws vs : List WorkTree}

/-- Two plays have come to the same, but for what the bullets have left to play. -/
structure Play.Akin (K : List WorkTree → List WorkTree → Prop)
    (x y : EStateM.Result PatternError Stage (List WorkTree)) : Prop where
  motion : (stage y).motion = (stage x).motion
  context : (stage y).context = (stage x).context
  misses : (stage y).room.misses = (stage x).room.misses
  cast : List.Forall₂ (fun a b => b.motion = a.motion ∧ K a.roots b.roots) (stage x).cast
    (stage y).cast
  left : (stage x).motion.vanished = true ∨ K (Play.left x) (Play.left y)

theorem Play.Akin.refl (r : Option Pattern)
    (x : EStateM.Result PatternError Stage (List WorkTree)) : Akin (Kin p q ρ r r) x x :=
  ⟨rfl, rfl, rfl, List.forall₂_same.2 fun _ _ => ⟨rfl, .same r _⟩, .inr (.same r _)⟩

/-- Kindred bullets play alike, unless the first pattern is nested too deep. -/
theorem Kin.akin (h : Pattern.Recasts move p q ρ) (hk : Kin p q ρ r r' ws vs) (σ : Stage)
    (hv : σ.motion.vanished = false) (hc : σ.cast = [])
    (hl : r = some p → ∀ n τ, Play.program r ws σ ≠ .error (.recursionLimit n) τ) :
    Play.Akin (Kin p q ρ r r') (Play.program r ws σ) (Play.program r' vs σ) := by
  cases hk with
  | same => exact .refl r _
  | recast hr =>
    have hmatches : σ.Matches p q ρ σ := by
      refine ⟨rfl, rfl, rfl, ?_⟩
      rw [hc]
      exact .nil
    have hecho := Play.echo_roots h hr hmatches hv
    have hlimit := hl rfl
    rw [Play.program] at hlimit
    rw [Play.program, Play.program]
    have kindred {σ τ : Stage} (hs : σ.Matches p q ρ τ) :
        List.Forall₂ (fun a b => b.motion = a.motion ∧
          Kin p q ρ (some p) (some q) a.roots b.roots) σ.cast τ.cast :=
      hs.cast.imp fun _ _ ha => ⟨ha.1, .recast ha.2⟩
    generalize Play.roots p ws σ = x at hecho hlimit ⊢
    generalize Play.roots q vs σ = y at hecho ⊢
    cases hecho with
    | ok hs hq =>
      exact ⟨hs.motion, hs.context, congrArg Room.misses hs.room, kindred hs,
        hq.imp_right .recast⟩
    | error hs =>
      exact ⟨hs.motion, hs.context, congrArg Room.misses hs.room, kindred hs, .inr (.recast .nil)⟩
    | limit => exact absurd rfl (hlimit _ _)

/-- Two bullets that cannot be told apart, and do not become so unless they are to vanish. -/
structure Twin (p q : Pattern) (ρ : NodeId → NodeId → Prop) (a a' : Arena) (b b' : Bullet) :
    Prop where
  id : b'.id = b.id
  motion : b'.motion = b.motion
  kin : b.vanished = true ∨ ∃ ws vs, a.Shows b.tasks ws ∧ a'.Shows b'.tasks vs ∧
    Kin p q ρ b.pattern b'.pattern ws vs

namespace Twin

variable {a a' a₁ a₁' : Arena} {b b' : Bullet} {bs bs' : List Bullet}

theorem vanished (h : Twin p q ρ a a' b b') : b'.vanished = b.vanished :=
  congrArg Motion.vanished h.motion

theorem keeps (h : Twin p q ρ a a' b b') (hk : a.Keeps a₁ bs) (hk' : a'.Keeps a₁' bs')
    (hb : b ∈ bs) (hb' : b' ∈ bs') : Twin p q ρ a₁ a₁' b b' where
  id := h.id
  motion := h.motion
  kin := by
    refine h.kin.imp_right ?_
    rintro ⟨ws, vs, hws, hvs, hkin⟩
    exact ⟨ws, vs, hk b hb ws hws, hk' b' hb' vs hvs, hkin⟩

/-- A bullet without tasks is its own twin. -/
theorem bare (ht : b.tasks = []) : Twin p q ρ a a' b b where
  id := rfl
  motion := rfl
  kin := by
    refine .inr ⟨[], [], ?_, ?_, .same _ _⟩
    · rw [ht]
      exact .nil
    · rw [ht]
      exact .nil

/-- Bullets that are fired alike are twins, whatever handle they are given. -/
theorem of_casts {shots shots' : List Bullet} {actors actors' : List Actor}
    (hc : a.Casts shots actors) (hc' : a'.Casts shots' actors')
    (ha : List.Forall₂ (fun x y => y.motion = x.motion ∧ Kin p q ρ r r' x.roots y.roots) actors
      actors')
    (hp : ∀ shot ∈ shots, shot.pattern = r) (hp' : ∀ shot ∈ shots', shot.pattern = r') :
    List.Forall₂ (fun b b' => ∀ id, Twin p q ρ a a' { b with id } { b' with id }) shots shots' := by
  induction ha generalizing shots shots' with
  | nil =>
    cases hc
    cases hc'
    exact .nil
  | cons hactor _ ih =>
    cases hc with
    | cons hb hc =>
      cases hc' with
      | cons hb' hc' =>
        obtain ⟨rfl, hp⟩ := List.forall_mem_cons.1 hp
        obtain ⟨rfl, hp'⟩ := List.forall_mem_cons.1 hp'
        refine .cons (fun id => ⟨rfl, ?_, .inr ⟨_, _, hb.2, hb'.2, hactor.2⟩⟩) (ih hc hc' hp hp')
        exact hb'.1.trans (hactor.1.trans hb.1.symm)

end Twin

namespace Turn

variable {t t' : Turn} {shots shots' : List Bullet} {vain vain' : Bool}
  {x y : EStateM.Result PatternError Stage (List WorkTree)}

/-- Turns that realize kindred plays leave twins. -/
theorem twins_after (h : t.pool.Mirrors (Twin p q ρ t.tasks t'.tasks) t'.pool)
    (ht : t.Passes t.pool.occupants shots vain) (ht' : t'.Passes t'.pool.occupants shots' vain')
    (hid : t'.bullet.id = t.bullet.id) (hx : t.runTasks.Realizes shots vain x)
    (hy : t'.runTasks.Realizes shots' vain' y)
    (hk : Play.Akin (Kin p q ρ t.bullet.pattern t'.bullet.pattern) x y) :
    t.runTasks.pool.Mirrors (Twin p q ρ t.runTasks.tasks t'.runTasks.tasks) t'.runTasks.pool ∧
      Twin p q ρ t.runTasks.tasks t'.runTasks.tasks t.runTasks.bullet t'.runTasks.bullet := by
  have hmisses : vain'.toNat = vain.toNat := hy.misses.symm.trans (hk.misses.trans hx.misses)
  obtain rfl : vain' = vain := by
    revert hmisses
    cases vain <;> cases vain' <;> decide
  constructor
  · rw [ht.pool, ht'.pool]
    have hothers := h.imp fun _ hb _ hb' htwin => htwin.keeps ht.keeps ht'.keeps hb hb'
    exact hothers.receive (fun _ => .bare rfl)
      (Twin.of_casts hx.cast hy.cast hk.cast ht.launched ht'.launched) _
  · refine ⟨by rw [ht.alike.id, ht'.alike.id, hid], ?_, ?_⟩
    · rw [hx.motion, hy.motion, hk.motion]
    · have hvanished : t.runTasks.bullet.vanished = (Play.stage x).motion.vanished :=
        congrArg Motion.vanished hx.motion
      rw [hvanished, ht.alike.pattern, ht'.alike.pattern]
      exact hk.left.imp_right fun hleft => ⟨_, _, hx.roots, hy.roots, hleft⟩

theorem Passes.serves_after (h : t.Passes t.pool.occupants shots vain) :
    t.runTasks.tasks.Serves (t.runTasks.bullet :: t.runTasks.pool.occupants) := by
  rw [h.pool]
  exact Pool.serves_receive [t.runTasks.bullet] h.serves vain

end Turn

namespace Simulation

/-- Two simulations that cannot be told apart. -/
structure Paired (p q : Pattern) (ρ : NodeId → NodeId → Prop) (s s' : Simulation) : Prop where
  pool : s.pool.Mirrors (Twin p q ρ s.tasks s'.tasks) s'.pool
  serves : s.tasks.Serves s.pool.occupants
  serves' : s'.tasks.Serves s'.pool.occupants
  context : s'.context = s.context
  alike : s.Alike s'

variable {s s' : Simulation} {b b' : Bullet} {id : BulletId} {dt : Float32}

section Tick

/-- The turn of the bullet of a handle, which is taken out of its slot for it. -/
def turnOf (s : Simulation) (id : BulletId) (b : Bullet) : Turn :=
  ⟨b, s.tasks, (s.pool.take id).2, s.context, s.notices⟩

theorem tick_of_none {scale : Float32} (h : s.pool.get? id = none) :
    s.tick scale id = { s with pool := (s.pool.take id).2 } := by
  have ht : s.pool.take id = (none, (s.pool.take id).2) := congrArg (·, _) h
  rw [tick, ht]

theorem tick_of_vanished {scale : Float32} (h : s.pool.get? id = some b)
    (hv : b.vanished = true) :
    s.tick scale id = ({ s with pool := (s.pool.take id).2 } : Simulation).settle scale b := by
  have ht : s.pool.take id = (some b, (s.pool.take id).2) := congrArg (·, _) h
  rw [tick, ht]
  simp only [hv, if_true]

theorem tick_of_turn {scale : Float32} (h : s.pool.get? id = some b) (hv : b.vanished = false) :
    s.tick scale id =
      (s.after (s.turnOf id b).runTasks).settle scale (s.turnOf id b).runTasks.bullet := by
  have ht : s.pool.take id = (some b, (s.pool.take id).2) := congrArg (·, _) h
  rw [tick, ht]
  simp only [hv]
  rfl

/-- Twins that fly on and are put back are twins still. -/
theorem paired_settle (s s' : Simulation)
    (hp : s.pool.Mirrors (Twin p q ρ s.tasks s'.tasks) s'.pool)
    (hs : s.tasks.Serves (b :: s.pool.occupants)) (hs' : s'.tasks.Serves (b' :: s'.pool.occupants))
    (hc : s'.context = s.context) (ha : s.Alike s') (hb : Twin p q ρ s.tasks s'.tasks b b')
    (dt : Float32) :
    Paired p q ρ (s.settle (dt * referenceFps) b) (s'.settle (dt * referenceFps) b') := by
  have hconditions : s'.conditions dt = s.conditions dt := by
    simp only [conditions, hc, ha.2.1, ha.2.2]
  have hmotion : (s'.flown (dt * referenceFps) b').motion =
      (s.flown (dt * referenceFps) b).motion := by
    rw [motion_flown, motion_flown, hconditions, hb.motion]
  have hvanished (hv : b.vanished = true) : (s.flown (dt * referenceFps) b).vanished = true := by
    unfold flown
    split
    · rfl
    · exact hv
  have htwin : Twin p q ρ s.tasks s'.tasks (s.flown (dt * referenceFps) b)
      (s'.flown (dt * referenceFps) b') := by
    refine ⟨by rw [flown_id, flown_id, hb.id], hmotion, hb.kin.imp hvanished ?_⟩
    rw [flown_tasks, flown_tasks, flown_pattern, flown_pattern]
    exact id
  refine ⟨hp.place htwin htwin.id, ?_, ?_, hc, ha⟩
  · exact (hs.congr_head flown_tasks).subperm (Pool.occupants_place _ _)
  · exact (hs'.congr_head flown_tasks).subperm (Pool.occupants_place _ _)

theorem Paired.tick_of_turn (hr : Pattern.Recasts move p q ρ) (h : Paired p q ρ s s')
    (hb : s.pool.get? id = some b) (hb' : s'.pool.get? id = some b')
    (ht : Twin p q ρ s.tasks s'.tasks b b') (hv : b.vanished = false)
    (hf : b.pattern = some p → (s.turnOf id b).isStarved = false)
    (hw : (s.tick (dt * referenceFps) id).tasks.NoWrap)
    (hw' : (s'.tick (dt * referenceFps) id).tasks.NoWrap) :
    Paired p q ρ (s.tick (dt * referenceFps) id) (s'.tick (dt * referenceFps) id) := by
  rw [Simulation.tick_of_turn hb hv] at hw ⊢
  rw [Simulation.tick_of_turn hb' (ht.vanished.trans hv)] at hw' ⊢
  obtain ⟨shots, vain, hpass⟩ :=
    Turn.passes (t := s.turnOf id b) (h.serves.perm (Pool.occupants_take hb)) hw
  obtain ⟨shots', vain', hpass'⟩ :=
    Turn.passes (t := s'.turnOf id b') (h.serves'.perm (Pool.occupants_take hb')) hw'
  obtain ⟨ws, vs, hws, hvs, hkin⟩ := ht.kin.resolve_left (by rw [hv]; exact nofun)
  have hscene : (s'.turnOf id b').scene = (s.turnOf id b).scene := by
    simp only [Turn.scene, turnOf, ht.motion, h.context, (h.pool.take id).places]
  have hakin := hkin.akin hr (s.turnOf id b).scene hv rfl fun hp n τ hx => by
    have hstarved := hpass.starved ws hws n τ hx
    rw [hf hp] at hstarved
    cases hstarved
  have hx := hpass.realizes ws hws
  have hy := hpass'.realizes vs hvs
  rw [hscene] at hy
  obtain ⟨hpool, htwin⟩ := Turn.twins_after (h.pool.take id) hpass hpass' ht.id hx hy hakin
  exact paired_settle (s.after _) (s'.after _) hpool hpass.serves_after
    hpass'.serves_after (hy.context.trans (hakin.context.trans hx.context.symm)) h.alike htwin dt

/-- One frame of the same bullet in both simulations. The first one must not run out of levels. -/
theorem Paired.tick (hr : Pattern.Recasts move p q ρ) (h : Paired p q ρ s s') (id : BulletId)
    (hf : ∀ b, s.pool.get? id = some b → b.vanished = false → b.pattern = some p →
      (s.turnOf id b).isStarved = false)
    (hw : (s.tick (dt * referenceFps) id).tasks.NoWrap)
    (hw' : (s'.tick (dt * referenceFps) id).tasks.NoWrap) :
    Paired p q ρ (s.tick (dt * referenceFps) id) (s'.tick (dt * referenceFps) id) := by
  have htake := h.pool.take id
  have hget := h.pool.get? id
  cases hb : s.pool.get? id with
  | none =>
    rw [hb] at hget
    cases hb' : s'.pool.get? id with
    | some b' =>
      rw [hb'] at hget
      cases hget
    | none =>
      rw [tick_of_none hb, tick_of_none hb']
      exact ⟨htake, h.serves.subperm (Pool.occupants_vacate _ _),
        h.serves'.subperm (Pool.occupants_vacate _ _), h.context, h.alike⟩
  | some b =>
    rw [hb] at hget
    cases hb' : s'.pool.get? id with
    | none =>
      rw [hb'] at hget
      cases hget
    | some b' =>
      rw [hb'] at hget
      obtain ⟨htwin⟩ := hget
      have hserves := h.serves.perm (Pool.occupants_take hb)
      have hserves' := h.serves'.perm (Pool.occupants_take hb')
      cases hv : b.vanished with
      | true =>
        rw [tick_of_vanished hb hv, tick_of_vanished hb' (htwin.vanished.trans hv)]
        exact paired_settle { s with pool := (s.pool.take id).2 }
          { s' with pool := (s'.pool.take id).2 } htake hserves hserves' h.context h.alike
          htwin dt
      | false => exact h.tick_of_turn hr hb hb' htwin hv (hf b hb hv) hw hw'

end Tick

end Simulation
end Barrage

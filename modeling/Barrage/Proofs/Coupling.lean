import Barrage.Proofs.Tame

namespace Barrage

def Stage.dropped (σ : Stage) : Nat := σ.context.stats.dropped

/-- Stages between which a calm tree cannot tell. The random numbers, the last fire, the room and
the counts may differ. -/
structure Stage.Alike (p : Pattern) (σ τ : Stage) : Prop where
  motion : σ.motion = τ.motion
  rank : σ.context.rank = τ.context.rank
  target : σ.context.target = τ.context.target
  cast : σ.cast = τ.cast
  calm : ∀ actor ∈ σ.cast, ∀ w ∈ actor.roots, w.Calm p

namespace Play

/-- The stage in which a play has left things. -/
def stage {α : Type} : EStateM.Result PatternError Stage α → Stage
  | .ok _ σ => σ
  | .error _ σ => σ

/-- No bullet that was dropped comes back. -/
def Mono {α : Type} (m : Play α) : Prop := ∀ σ, σ.dropped ≤ (stage (m σ)).dropped

/-- Two plays answer alike, with an answer for which `Q` holds, or fail alike, unless one of them
has dropped more bullets than it may. -/
inductive Agree {α : Type} (p : Pattern) (Q : α → Prop) (n k : Nat) :
    EStateM.Result PatternError Stage α → EStateM.Result PatternError Stage α → Prop where
  | ok {a : α} {σ τ : Stage} (hq : Q a) (hs : σ.Alike p τ) : Agree p Q n k (.ok a σ) (.ok a τ)
  | error {e : PatternError} {σ τ : Stage} (hs : σ.Alike p τ) :
      Agree p Q n k (.error e σ) (.error e τ)
  | dropped {x y : EStateM.Result PatternError Stage α}
      (hd : n < (stage x).dropped ∨ k < (stage y).dropped) : Agree p Q n k x y

/-- The play goes alike on stages between which a calm tree cannot tell, as long as no bullet is
dropped. -/
structure Steady {α : Type} (p : Pattern) (Q : α → Prop) (m : Play α) : Prop where
  mono : Mono m
  agree : ∀ σ τ, σ.Alike p τ → Agree p Q σ.dropped τ.dropped (m σ) (m τ)

variable {α β : Type} {p : Pattern} {Q : α → Prop} {R : β → Prop} {m : Play α} {f : α → Play β}

section Laws

theorem Mono.pure (a : α) : Mono (pure a) := fun _ => Nat.le_refl _

theorem Mono.throw (e : PatternError) : Mono (throw e : Play α) := fun _ => Nat.le_refl _

theorem Mono.get : Mono get := fun _ => Nat.le_refl _

theorem Mono.le_bind (hf : ∀ a, Mono (f a)) (σ : Stage) :
    (stage (m σ)).dropped ≤ (stage ((m >>= f) σ)).dropped := by
  cases hm : m σ with
  | error e σ' =>
    rw [bind_of_error hm]
    exact Nat.le_refl _
  | ok a σ' =>
    rw [bind_of_ok hm]
    exact hf a σ'

theorem Mono.bind (hm : Mono m) (hf : ∀ a, Mono (f a)) : Mono (m >>= f) := fun σ =>
  (hm σ).trans (le_bind hf σ)

theorem Steady.pure {a : α} (hq : Q a) : Steady p Q (pure a) where
  mono := .pure a
  agree _ _ h := .ok hq h

theorem Steady.throw (e : PatternError) : Steady p Q (throw e : Play α) where
  mono := .throw e
  agree _ _ h := .error h

theorem Agree.of_eq {n k : Nat} {a b : α} {σ τ : Stage} (he : a = b) (hq : Q a)
    (hs : σ.Alike p τ) : Agree p Q n k (.ok a σ) (.ok b τ) := by
  subst he
  exact .ok hq hs

/-- Fewer bullets may be dropped. -/
theorem Agree.mono {n n' k k' : Nat} {x y : EStateM.Result PatternError Stage α}
    (h : Agree p Q n k x y) (hn : n' ≤ n) (hk : k' ≤ k) : Agree p Q n' k' x y := by
  cases h with
  | ok hq hs => exact .ok hq hs
  | error hs => exact .error hs
  | dropped hd => exact .dropped (hd.imp hn.trans_lt hk.trans_lt)

theorem Steady.bind (hm : Steady p Q m) (hf : ∀ a, Mono (f a))
    (hs : ∀ a, Q a → Steady p R (f a)) : Steady p R (m >>= f) where
  mono := hm.mono.bind hf
  agree σ τ h := by
    have hσ := hm.mono σ
    have hτ := hm.mono τ
    have hσ' := Mono.le_bind hf (m := m) σ
    have hτ' := Mono.le_bind hf (m := m) τ
    have hagree := hm.agree σ τ h
    generalize hx : m σ = x at *
    generalize hy : m τ = y at *
    cases hagree with
    | ok hq halike =>
      rw [bind_of_ok hx, bind_of_ok hy]
      exact ((hs _ hq).agree _ _ halike).mono hσ hτ
    | error halike =>
      rw [bind_of_error hx, bind_of_error hy]
      exact .error halike
    | dropped hd => exact .dropped (hd.imp hσ'.trans_lt' hτ'.trans_lt')

theorem Steady.next (hm : Steady p Q m) (hf : ∀ a, Steady p R (f a)) : Steady p R (m >>= f) :=
  hm.bind (fun a => (hf a).mono) fun a _ => hf a

theorem Steady.map {g : α → β} (hm : Steady p Q m) (hg : ∀ a, Q a → R (g a)) :
    Steady p R (g <$> m) := by
  rw [map_eq_pure_bind]
  exact hm.bind (fun a => .pure (g a)) fun a hq => .pure (hg a hq)

/-- What is read of the stage is alike on both. -/
theorem Steady.read {f : Stage → Play β} (hf : ∀ σ, Steady p R (f σ))
    (heq : ∀ σ τ, σ.Alike p τ → f σ = f τ) : Steady p R (get >>= f) where
  mono := Mono.get.bind fun σ => (hf σ).mono
  agree σ τ h := by
    have hget (σ : Stage) : (MonadState.get : Play Stage) σ = .ok σ σ := rfl
    rw [bind_of_ok (hget σ), bind_of_ok (hget τ), heq σ τ h]
    exact (hf τ).agree σ τ h

theorem Steady.modify {f : Stage → Stage} (hd : ∀ σ, σ.dropped ≤ (f σ).dropped)
    (hf : ∀ σ τ, σ.Alike p τ → (f σ).Alike p (f τ)) :
    Steady p (fun _ => True) (modify f : Play Unit) where
  mono := hd
  agree σ τ h := .ok trivial (hf σ τ h)

end Laws

section Leaf

variable (hp : p.Tame) (n : NodeId) (params : List Float32)

theorem steady_modifyMotion (g : Motion → Motion) :
    Steady p (fun _ => True) (modifyMotion g) :=
  .modify (fun _ => Nat.le_refl _) fun _ _ h =>
    ⟨congrArg g h.motion, h.rank, h.target, h.cast, h.calm⟩

theorem mono_isVanished : Mono isVanished := Mono.get.bind fun _ => .pure _

theorem steady_isVanished : Steady p (fun _ => True) isVanished := by
  apply Steady.read (fun _ => .pure trivial)
  intro σ τ h
  rw [h.motion]

include hp

theorem steady_eval : Steady p (fun _ => True) (eval p n params) where
  mono _ := Nat.le_refl _
  agree σ τ h := by
    have hscope : σ.context.scope params σ.motion.bullet =
        τ.context.scope params τ.motion.bullet := by
      rw [Context.scope, Context.scope, h.motion, h.rank]
    have hvalue : (p.evalNode n (σ.context.scope params σ.motion.bullet) σ.context.random).1 =
        (p.evalNode n (τ.context.scope params τ.motion.bullet) τ.context.random).1 := by
      rw [hscope]
      exact hp.evalNode n _ _ _
    exact .of_eq hvalue trivial ⟨h.motion, h.rank, h.target, h.cast, h.calm⟩

theorem steady_wait (remaining : Option UInt32) :
    Steady p (fun x => x.2.Calm p) (wait p n params remaining) := by
  have counted (n : UInt32) : Steady p (fun x => x.2.Calm p)
      (if n == 0 then pure (.ended, .wait (some 0)) else pure (.paused, .wait (some (n - 1))) :
        Play (Status × TaskKind)) := by
    split
    · exact .pure trivial
    · exact .pure trivial
  cases remaining with
  | some n => exact counted n
  | none =>
    have count : Steady p (fun _ => True) (Binary32.toCount <$> eval p n params) :=
      (steady_eval hp n params).map fun _ _ => trivial
    exact count.next counted

theorem steady_changeDirection (change : ChangeState) :
    Steady p (fun x => x.2.Calm p) (changeDirection p params change) := by
  have last (ramp : Ramp Float32) : Steady p (fun x => x.2.Calm p) (do
      modifyMotion fun m => { m with direction := m.direction + Angle.toRadians ramp.delta }
      pure (Turn.rampStatus ramp, .changeDirection { change with ramp := some ramp }) :
        Play (Status × TaskKind)) :=
    (steady_modifyMotion _).next fun _ => .pure trivial
  unfold changeDirection
  cases change.ramp with
  | some ramp => exact last ramp.step
  | none =>
    refine (steady_eval hp _ params).next fun _ => (steady_eval hp _ params).next fun _ =>
      .read (fun _ => last _) ?_
    intro σ τ h
    rw [h.motion, h.target]

theorem steady_changeSpeed (change : ChangeState) :
    Steady p (fun x => x.2.Calm p) (changeSpeed p params change) := by
  have last (ramp : Ramp Float32) : Steady p (fun x => x.2.Calm p) (do
      modifyMotion fun m => { m with speed := m.speed + ramp.delta }
      pure (Turn.rampStatus ramp, .changeSpeed { change with ramp := some ramp }) :
        Play (Status × TaskKind)) :=
    (steady_modifyMotion _).next fun _ => .pure trivial
  unfold changeSpeed
  cases change.ramp with
  | some ramp => exact last ramp.step
  | none =>
    refine (steady_eval hp _ params).next fun _ => (steady_eval hp _ params).next fun _ =>
      .read (fun _ => last _) ?_
    intro σ τ h
    rw [h.motion]

theorem steady_axisRamp (current : Float32) (term : UInt32) (axis : Option NodeId) :
    Steady p (fun _ => True) (axisRamp p params current term axis) := by
  cases axis with
  | none => exact .pure trivial
  | some n => exact (steady_eval hp n params).next fun _ => .pure trivial

theorem steady_accel (state : AccelState) :
    Steady p (fun x => x.2.Calm p) (accel p params state) := by
  have last (ramp : Ramp Point) : Steady p (fun x => x.2.Calm p) (do
      modifyMotion fun m => { m with extraVelocity := m.extraVelocity + ramp.delta }
      pure (Turn.rampStatus ramp, .accel { state with ramp := some ramp }) :
        Play (Status × TaskKind)) :=
    (steady_modifyMotion _).next fun _ => .pure trivial
  unfold accel
  cases state.ramp with
  | some ramp => exact last ramp.step
  | none =>
    apply Steady.read
    · intro σ
      exact (steady_eval hp _ params).next fun _ => (steady_axisRamp hp params _ _ _).next fun _ =>
        (steady_axisRamp hp params _ _ _).next fun _ => last _
    · intro σ τ h
      rw [h.motion]

end Leaf

section Fire

variable (hp : p.Tame)

theorem steady_expandFor {motion : Motion} {step : Binder → Expansion α}
    (hs : ∀ b, b.pattern = p → Expansion.Steady Q (step b)) :
    Steady p Q (expandFor p motion step) where
  mono σ := by
    unfold expandFor
    split
    · exact Nat.le_refl _
    · exact Nat.le_refl _
  agree σ τ h := by
    have hagree := hs ⟨p, σ.context.rank, motion.bullet⟩ rfl σ.context.random τ.context.random
    generalize hx : step ⟨p, σ.context.rank, motion.bullet⟩ σ.context.random = x at hagree
    generalize hy : step ⟨p, σ.context.rank, motion.bullet⟩ τ.context.random = y at hagree
    rw [h.rank] at hy
    cases hagree with
    | ok hq =>
      rw [expandFor_of_ok hx, expandFor_of_ok hy]
      exact .ok hq ⟨h.motion, h.rank, h.target, h.cast, h.calm⟩
    | error =>
      rw [expandFor_of_error hx, expandFor_of_error hy]
      exact .error ⟨h.motion, h.rank, h.target, h.cast, h.calm⟩

theorem Steady.orMiss (h : Steady p Q m) : Steady p Q (orMiss m) where
  mono σ := by
    have hle := h.mono σ
    unfold Play.orMiss
    cases hm : m σ with
    | ok a σ' =>
      rw [hm] at hle
      exact hle
    | error e σ' =>
      rw [hm] at hle
      exact hle
  agree σ τ ha := by
    have hagree := h.agree σ τ ha
    generalize hx : m σ = x at hagree
    generalize hy : m τ = y at hagree
    cases hagree with
    | ok hq hs =>
      rw [orMiss_of_ok hx, orMiss_of_ok hy]
      exact .ok hq hs
    | error hs =>
      rw [orMiss_of_error hx, orMiss_of_error hy]
      exact .error ⟨hs.motion, hs.rank, hs.target, hs.cast, hs.calm⟩
    | dropped hd =>
      have hstage (z : EStateM.Result PatternError Stage α) (ρ : Stage) (hz : m ρ = z) :
          (stage (Play.orMiss m ρ)).dropped = (stage z).dropped := by
        cases z with
        | ok a ρ' => rw [orMiss_of_ok hz]
        | error e ρ' =>
          rw [orMiss_of_error hz]
          rfl
      exact .dropped (by rwa [hstage x σ hx, hstage y τ hy])

theorem resolveDirection_of_calm {i i' : FireInputs} {mode : Option Mode} {value : Option Float32}
    (hm : mode ≠ some .sequence) (hd : i.direction = i'.direction) (ha : i.aim = i'.aim) :
    i.resolveDirection mode value = i'.resolveDirection mode value := by
  cases value with
  | none => exact ha
  | some v =>
    simp only [FireInputs.resolveDirection, hd, ha]
    split <;> simp_all

theorem resolveSpeed_of_calm {i i' : FireInputs} {mode : Option Mode} {value : Option Float32}
    (hm : mode ≠ some .sequence) (hs : i.speed = i'.speed) :
    i.resolveSpeed mode value = i'.resolveSpeed mode value := by
  cases value with
  | none => simp only [FireInputs.resolveSpeed, hs]
  | some v =>
    simp only [FireInputs.resolveSpeed, hs]
    split <;> simp_all

include hp

theorem steady_evalSource (ps qs : List Float32) (source : Option ValueSource) :
    Steady p (fun _ => True) (evalSource p ps qs source) := by
  cases source with
  | none => exact .pure trivial
  | some source => exact (steady_eval hp _ _).map fun _ _ => trivial

theorem mono_resolve (ps qs : List Float32) (state : FireState) :
    Mono (resolve p ps qs state) := by
  have source (source : Option ValueSource) := (steady_evalSource hp ps qs source).mono
  exact (source _).bind fun _ => (source _).bind fun _ => Mono.get.bind fun _ => .pure _

/-- A fire that does not go on from the one before it has a direction and a speed of its own. -/
theorem steady_resolve (ps qs : List Float32) {state : FireState}
    (hc : (TaskKind.fire state).Calm p) :
    Steady p (fun _ => True) (resolve p ps qs state) := by
  refine (steady_evalSource hp ps qs _).next fun _ => (steady_evalSource hp ps qs _).next fun _ =>
    .read (fun _ => .pure trivial) ?_
  intro σ τ h
  refine congrArg pure (congrArg₂ SequenceState.mk (resolveDirection_of_calm hc.1 ?_ ?_)
    (resolveSpeed_of_calm hc.2 ?_))
  · rw [h.motion]
  · rw [h.motion, h.target]
  · rw [h.motion]

theorem steady_shoot (bullet : NodeId) (params : List Float32) (q : SequenceState) :
    Steady p (fun _ => True) (shoot p bullet params q) := by
  have joins (motion : Motion) {trees : List TaskTree} (ht : ∀ t ∈ trees, t.fresh.Calm p) :
      Steady p (fun _ => True) (modify fun σ : Stage => { σ with
        room := σ.room.take
        context := { σ.context with sequence := q }.countFired
        cast := σ.cast ++ [⟨motion, TaskTree.freshAll trees⟩] } : Play Unit) := by
    refine .modify (fun σ => Nat.le_refl σ.dropped) fun σ τ h =>
      ⟨h.motion, h.rank, h.target, congrArg (· ++ _) h.cast, ?_⟩
    intro actor ha
    rcases List.mem_append.1 ha with ha | ha
    · exact h.calm actor ha
    · rw [List.mem_singleton.1 ha]
      exact TaskTree.calm_freshAll ht
  apply Steady.read
  · intro σ
    exact (steady_expandFor fun b hb =>
      Binder.steady_children (Binder.steadies_node hp hb _) params _).orMiss.bind
      (fun _ σ => Nat.le_refl σ.dropped) fun _ ht => joins _ ht
  · intro σ τ h
    rw [h.motion]

theorem mono_fire (params : List Float32) (state : FireState) (ws : List WorkTree) :
    Mono (fire p params state ws) := by
  match ws with
  | [] => exact .pure _
  | .node _ qs _ _ _ :: _ =>
    apply Mono.get.bind
    intro σ
    split
    · exact fun σ => Nat.le_succ σ.dropped
    · exact (mono_resolve hp params qs state).bind fun q => (steady_shoot hp _ qs q).mono

theorem steady_fire (params : List Float32) {state : FireState} (ws : List WorkTree)
    (hc : (TaskKind.fire state).Calm p) :
    Steady p (fun _ => True) (fire p params state ws) := by
  refine ⟨mono_fire hp params state ws, ?_⟩
  intro σ τ h
  match ws with
  | [] => exact .ok trivial h
  | .node _ qs _ _ _ :: _ =>
    by_cases hσ : σ.room.places = 0
    · rw [fire_of_full hσ]
      exact .dropped (.inl (Nat.lt_succ_self _))
    · by_cases hτ : τ.room.places = 0
      · rw [fire_of_full hτ]
        exact .dropped (.inr (Nat.lt_succ_self _))
      · rw [fire_of_room hσ, fire_of_room hτ]
        exact ((steady_resolve hp params qs hc).next fun q =>
          steady_shoot hp state.bullet qs q).agree σ τ h

end Fire

section Tree

variable {play : WorkTree → Play (Status × WorkTree)} {w : WorkTree} {ws : List WorkTree}

/-- What follows the first tree of a list once that has answered. -/
def follow (play : WorkTree → Play (Status × WorkTree)) (ws : List WorkTree) (status : Status)
    (x : Status × WorkTree) : Play (Status × List WorkTree) := do
  if x.1 == .paused then pure (.paused, x.2 :: ws)
  else if ← isVanished then pure (.ended, x.2 :: ws)
  else
    let (status, ws) ← sequence play ws (x.1.after status)
    pure (status, x.2 :: ws)

theorem sequence_of_unfinished (hf : w.isFinished = false) (status : Status) :
    sequence play (w :: ws) status = play w >>= follow play ws status := by
  rw [sequence, if_neg (by simp [hf])]
  rfl

theorem mono_follow (hs : ∀ status, Mono (sequence play ws status)) (status : Status)
    (x : Status × WorkTree) : Mono (follow play ws status x) := by
  unfold follow
  split
  · exact .pure _
  · apply mono_isVanished.bind
    intro vanished
    split
    · exact .pure _
    · exact (hs _).bind fun _ => .pure _

theorem mono_sequence (hm : ∀ w, Mono (play w)) (ws : List WorkTree) (status : Status) :
    Mono (sequence play ws status) := by
  induction ws generalizing status with
  | nil => exact .pure _
  | cons w ws ih =>
    cases hf : w.isFinished with
    | true =>
      rw [sequence_of_finished hf]
      exact (ih status).bind fun _ => .pure _
    | false =>
      rw [sequence_of_unfinished hf]
      exact (hm w).bind (mono_follow ih status)

theorem steady_sequence (hm : ∀ w, Mono (play w))
    (hs : ∀ w, w.Calm p → Steady p (fun x => x.2.Calm p) (play w)) (hc : ∀ w ∈ ws, w.Calm p)
    (status : Status) :
    Steady p (fun x => ∀ w ∈ x.2, w.Calm p) (sequence play ws status) := by
  induction ws generalizing status with
  | nil => exact .pure nofun
  | cons w ws ih =>
    obtain ⟨hw, hws⟩ := List.forall_mem_cons.1 hc
    have add {w : WorkTree} (hw : w.Calm p) (status : Status) :
        Steady p (fun x => ∀ w ∈ x.2, w.Calm p) (do
          let (status, ws) ← sequence play ws status
          pure (status, w :: ws) : Play (Status × List WorkTree)) :=
      (ih hws status).bind (fun _ => .pure _) fun _ h => .pure (List.forall_mem_cons.2 ⟨hw, h⟩)
    cases hf : w.isFinished with
    | true =>
      rw [sequence_of_finished hf]
      exact add hw status
    | false =>
      rw [sequence_of_unfinished hf]
      refine (hs w hw).bind (mono_follow (mono_sequence hm ws) status) fun x hx => ?_
      have hcalm := List.forall_mem_cons.2 ⟨hx, hws⟩
      unfold follow
      split
      · exact .pure hcalm
      · refine steady_isVanished.next fun vanished => ?_
        split
        · exact .pure hcalm
        · exact add hx _

end Tree

section Repeat

variable (hp : p.Tame) (n : NodeId) (params : List Float32)
  {play : WorkTree → Play (Status × WorkTree)} {w : WorkTree} {ws : List WorkTree}

/-- What follows a body of a `repeat` that has answered. -/
def succeed (p : Pattern) (n : NodeId) (params : List Float32)
    (play : WorkTree → Play (Status × WorkTree)) (room left : Nat) (done : UInt32)
    (x : Status × WorkTree) : Play (Status × UInt32 × List WorkTree) := do
  if x.1 == .ended then
    if left == 0 || (← isVanished) then pure (.ended, done + 1, [])
    else
      let fresh ← expandFor p (← get).motion fun b => b.expandBody (b.expandNode room) n params
      bodies p n params play room left (done + 1) [fresh.fresh]
  else pure (x.1, done, [x.2])

theorem bodies_succ (room left : Nat) (done : UInt32) :
    bodies p n params play room (left + 1) done (w :: ws) =
      play w >>= succeed p n params play room left done := rfl

include hp

theorem steady_times (state : RepeatState) :
    Steady p (fun _ => True) (times p n params state) := by
  unfold times
  cases state.times with
  | some times => exact .pure trivial
  | none =>
    have clamped (wanted : UInt32) : Steady p (fun _ => True)
        (pure (if maxRepeat < wanted then maxRepeat else wanted)) := .pure trivial
    cases p.child? n .times with
    | none => exact clamped 0
    | some times =>
      have count : Steady p (fun _ => True) (Binary32.toCount <$> eval p times params) :=
        (steady_eval hp times params).map fun _ _ => trivial
      exact count.next clamped

theorem steady_fresh (room : Nat) (motion : Motion) :
    Steady p (·.fresh.Calm p)
      (expandFor p motion fun b => b.expandBody (b.expandNode room) n params) :=
  steady_expandFor fun _ hb => Binder.steady_body (Binder.steadies_node hp hb room) n params

theorem mono_succeed {room left : Nat}
    (hb : ∀ done ws, Mono (bodies p n params play room left done ws)) (done : UInt32)
    (x : Status × WorkTree) : Mono (succeed p n params play room left done x) := by
  unfold succeed
  split
  · apply mono_isVanished.bind
    intro vanished
    split
    · exact .pure _
    · exact Mono.get.bind fun _ => (steady_fresh hp n params room _).mono.bind fun _ => hb _ _
  · exact .pure _

theorem mono_bodies (hm : ∀ w, Mono (play w)) (room left : Nat) (done : UInt32)
    (ws : List WorkTree) : Mono (bodies p n params play room left done ws) := by
  induction left generalizing done ws with
  | zero => exact .pure _
  | succ left ih =>
    cases ws with
    | nil => exact .pure _
    | cons w ws =>
      rw [bodies_succ]
      exact (hm w).bind (mono_succeed hp n params ih done)

theorem steady_bodies (hm : ∀ w, Mono (play w))
    (hs : ∀ w, w.Calm p → Steady p (fun x => x.2.Calm p) (play w)) (hc : ∀ w ∈ ws, w.Calm p)
    (room left : Nat) (done : UInt32) :
    Steady p (fun x => ∀ w ∈ x.2.2, w.Calm p) (bodies p n params play room left done ws) := by
  induction left generalizing done ws with
  | zero => exact .pure nofun
  | succ left ih =>
    cases ws with
    | nil => exact .pure nofun
    | cons w ws =>
      rw [bodies_succ]
      refine (hs w (List.forall_mem_cons.1 hc).1).bind
        (mono_succeed hp n params (mono_bodies hp n params hm room left) done) fun x hx => ?_
      unfold succeed
      split
      · refine steady_isVanished.next fun vanished => ?_
        split
        · exact .pure nofun
        · apply Steady.read
          · intro σ
            exact (steady_fresh hp n params room _).bind
              (fun _ => mono_bodies hp n params hm room left _ _) fun tree ht =>
              ih (List.forall_mem_singleton.2 ht) _
          · intro σ τ h
            rw [h.motion]
      · exact .pure (List.forall_mem_singleton.2 hx)

end Repeat

section Kind

variable (hp : p.Tame)

include hp

theorem mono_kind {play : WorkTree → Play (Status × WorkTree)} (hm : ∀ w, Mono (play w))
    (n : NodeId) (params : List Float32) (ws : List WorkTree) (k : TaskKind) :
    Mono (kind p play n params ws k) := by
  cases k with
  | action => exact (mono_sequence hm ws _).bind fun _ => .pure _
  | bullet => exact (mono_sequence hm ws _).bind fun _ => .pure _
  | «repeat» st =>
    exact (steady_times hp n params st).mono.bind fun _ =>
      (mono_bodies hp n params hm _ _ _ _).bind fun _ => .pure _
  | fire st => exact (mono_fire hp params st ws).bind fun _ => .pure _
  | changeDirection st => exact (steady_changeDirection hp params st).mono.bind fun _ => .pure _
  | changeSpeed st => exact (steady_changeSpeed hp params st).mono.bind fun _ => .pure _
  | accel st => exact (steady_accel hp params st).mono.bind fun _ => .pure _
  | wait st => exact (steady_wait hp n params st).mono.bind fun _ => .pure _
  | vanish => exact fun σ => Nat.le_refl σ.dropped

theorem steady_kind {play : WorkTree → Play (Status × WorkTree)} (hm : ∀ w, Mono (play w))
    (hs : ∀ w, w.Calm p → Steady p (fun x => x.2.Calm p) (play w)) (n : NodeId)
    (params : List Float32) {ws : List WorkTree} {k : TaskKind} (hc : ∀ w ∈ ws, w.Calm p)
    (hk : k.Calm p) :
    Steady p (fun x => x.2.1.Calm p ∧ ∀ w ∈ x.2.2, w.Calm p) (kind p play n params ws k) := by
  have leaf {m : Play (Status × TaskKind)} (h : Steady p (fun x => x.2.Calm p) m) :
      Steady p (fun x => x.2.1.Calm p ∧ ∀ w ∈ x.2.2, w.Calm p) (do
        let x ← m
        pure (x.1, x.2, ws) : Play (Status × TaskKind × List WorkTree)) :=
    h.bind (fun _ => .pure _) fun _ hx => .pure ⟨hx, hc⟩
  have children {k : TaskKind} (hk : k.Calm p) :
      Steady p (fun x => x.2.1.Calm p ∧ ∀ w ∈ x.2.2, w.Calm p) (do
        let x ← sequence play ws .ended
        pure (x.1, k, x.2) : Play (Status × TaskKind × List WorkTree)) :=
    (steady_sequence hm hs hc _).bind (fun _ => .pure _) fun _ hx => .pure ⟨hk, hx⟩
  cases k with
  | action => exact children hk
  | bullet => exact children hk
  | «repeat» st =>
    exact (steady_times hp n params st).next fun _ =>
      (steady_bodies hp n params hm hs hc _ _ _).bind (fun _ => .pure _) fun _ hx =>
        .pure ⟨trivial, hx⟩
  | fire st => exact (steady_fire hp params ws hk).next fun _ => .pure ⟨hk, hc⟩
  | changeDirection st => exact leaf (steady_changeDirection hp params st)
  | changeSpeed st => exact leaf (steady_changeSpeed hp params st)
  | accel st => exact leaf (steady_accel hp params st)
  | wait st => exact leaf (steady_wait hp n params st)
  | vanish => exact (steady_modifyMotion _).next fun _ => .pure ⟨trivial, hc⟩

theorem mono_tree (fuel : Nat) (w : WorkTree) : Mono (tree p fuel w) := by
  induction fuel generalizing w with
  | zero => exact .throw _
  | succ fuel ih =>
    obtain ⟨n, params, k, ph, ws⟩ := w
    rw [tree]
    split
    · exact .pure _
    · exact (mono_kind hp ih n params ws k).bind fun _ => .pure _

/-- A calm tree of a tame pattern plays alike, whatever else goes on. -/
theorem steady_tree (fuel : Nat) {w : WorkTree} (hc : w.Calm p) :
    Steady p (fun x => x.2.Calm p) (tree p fuel w) := by
  induction fuel generalizing w with
  | zero => exact .throw _
  | succ fuel ih =>
    cases hc with
    | node hk hc =>
      rw [tree]
      split
      · exact .pure (.node hk hc)
      · exact (steady_kind hp (mono_tree hp fuel) (fun _ => ih) _ _ hc hk).bind (fun _ => .pure _)
          fun _ hx => .pure (.node hx.1 hx.2)

theorem mono_roots (ws : List WorkTree) : Mono (roots p ws) := by
  induction ws with
  | nil => exact .pure _
  | cons w ws ih =>
    refine (mono_tree hp _ w).bind fun _ => mono_isVanished.bind fun _ => ?_
    split
    · exact .pure _
    · exact ih.bind fun _ => .pure _

theorem steady_roots {ws : List WorkTree} (hc : ∀ w ∈ ws, w.Calm p) :
    Steady p (fun ws => ∀ w ∈ ws, w.Calm p) (roots p ws) := by
  induction ws with
  | nil => exact .pure nofun
  | cons w ws ih =>
    obtain ⟨hw, hws⟩ := List.forall_mem_cons.1 hc
    have left {status : Status} {w : WorkTree} {vs : List WorkTree} (hw : w.Calm p)
        (hvs : ∀ v ∈ vs, v.Calm p) : ∀ v ∈ remains status w ++ vs, v.Calm p := by
      unfold remains
      split
      · exact hvs
      · exact List.forall_mem_cons.2 ⟨hw, hvs⟩
    refine (steady_tree hp _ hw).bind (fun _ => mono_isVanished.bind fun _ => ?_) fun x hx =>
      steady_isVanished.next fun _ => ?_
    · split
      · exact .pure _
      · exact (mono_roots hp ws).bind fun _ => .pure _
    · split
      · exact .pure (left hx hws)
      · exact (ih hws).bind (fun _ => .pure _) fun _ h => .pure (left hx h)

end Kind

end Play
end Barrage

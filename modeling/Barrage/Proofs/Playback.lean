import Barrage.Proofs.Echo

namespace Barrage

/-- Stages that are alike but for the trees of the bullets that were fired, which resemble each
other. -/
structure Stage.Matches (p q : Pattern) (ρ : NodeId → NodeId → Prop) (σ τ : Stage) : Prop where
  motion : τ.motion = σ.motion
  context : τ.context = σ.context
  room : τ.room = σ.room
  cast : List.Forall₂ (fun a b => b.motion = a.motion ∧ Resembles p q ρ false a.roots b.roots)
    σ.cast τ.cast

variable {move : Move} {p q : Pattern} {ρ : NodeId → NodeId → Prop} {inAction : Bool}
  {ws vs : List WorkTree} {w v : WorkTree}

theorem Resembles.lift (h : Resembles p q ρ false ws vs) (inAction : Bool) :
    Resembles p q ρ inAction ws vs := by
  generalize hfalse : false = inner at h
  induction h with
  | nil => exact .nil
  | keep hn hk hb _ _ ih => exact .keep hn hk hb (ih hfalse)
  | spent => cases hfalse
  | dissolve => cases hfalse
  | idle => cases hfalse
  | unroll => cases hfalse

theorem Resembles.append {us xs : List WorkTree} (h₁ : Resembles p q ρ inAction ws vs)
    (h₂ : Resembles p q ρ inAction us xs) : Resembles p q ρ inAction (ws ++ us) (vs ++ xs) := by
  induction h₁ with
  | nil => exact h₂
  | keep hn hk hb _ _ ih => exact .keep hn hk hb (ih h₂)
  | spent hw hd _ ih =>
    rw [List.append_assoc]
    exact .spent hw hd (ih h₂)
  | dissolve hp hb _ _ ih =>
    rw [List.append_assoc]
    exact .dissolve hp hb (ih h₂)
  | idle hr hp ht _ ih => exact .idle hr hp ht (ih h₂)
  | unroll hr hp ht hx hl hw hf ho hb hn _ _ _ ih =>
    rw [List.append_assoc]
    exact .unroll hr hp ht hx hl hw hf ho hb hn (ih h₂)

namespace Play

variable {α β : Type} {Q : Stage → α → β → Prop} {σ τ : Stage} {n m : NodeId}
  {params : List Float32}

section Leaf

variable (h : Pattern.Recasts move p q ρ)

include h

theorem eval_eq (hr : ρ n m) (params : List Float32) : eval q m params = eval p n params := by
  simp only [eval, h.evalNode hr]

theorem echo_eval (hr : ρ n m) (params : List Float32) (hs : σ.Matches p q ρ τ) :
    Echo (Stage.Matches p q ρ) (fun σ' a b => σ'.motion = σ.motion ∧ a = b)
      (eval p n params σ) (eval q m params τ) := by
  rw [eval_eq h hr]
  obtain ⟨motion, context, room, cast⟩ := σ
  obtain ⟨motion', context', room', cast'⟩ := τ
  obtain ⟨rfl, rfl, rfl, hc⟩ := hs
  exact .ok ⟨rfl, rfl, rfl, hc⟩ ⟨rfl, rfl⟩

omit h in
theorem echo_modifyMotion (f : Motion → Motion) (hs : σ.Matches p q ρ τ) :
    Echo (Stage.Matches p q ρ) (fun _ _ _ => True) (modifyMotion f σ) (modifyMotion f τ) :=
  .ok ⟨congrArg f hs.motion, hs.context, hs.room, hs.cast⟩ trivial

theorem echo_wait (hr : ρ n m) (params : List Float32) (remaining : Option UInt32)
    (hs : σ.Matches p q ρ τ) :
    Echo (Stage.Matches p q ρ) (fun _ x y => x.1 = y.1 ∧ x.2.Resembles p ρ n y.2)
      (wait p n params remaining σ) (wait q m params remaining τ) := by
  have counted (k : UInt32) {σ τ : Stage} (hs : σ.Matches p q ρ τ) :
      Echo (Stage.Matches p q ρ)
        (fun _ (x y : Status × TaskKind) => x.1 = y.1 ∧ x.2.Resembles p ρ n y.2)
        ((if k == 0 then pure (.ended, .wait (some 0))
          else pure (.paused, .wait (some (k - 1))) : Play (Status × TaskKind)) σ)
        ((if k == 0 then pure (.ended, .wait (some 0))
          else pure (.paused, .wait (some (k - 1))) : Play (Status × TaskKind)) τ) := by
    split
    · exact .ok hs ⟨rfl, .wait⟩
    · exact .ok hs ⟨rfl, .wait⟩
  cases remaining with
  | some k => exact counted k hs
  | none =>
    have count := (echo_eval h hr params hs).map (k := Binary32.toCount) (l := Binary32.toCount)
      (R := fun _ a b => a = b) fun _ _ _ he => congrArg _ he.2
    refine count.bind ?_
    rintro k _ σ τ hs rfl
    exact counted k hs

theorem echo_changeDirection {value value' term term' : NodeId} (hv : ρ value value')
    (ht : ρ term term') (params : List Float32) (ramp : Option (Ramp Float32))
    (hs : σ.Matches p q ρ τ) :
    Echo (Stage.Matches p q ρ) (fun _ x y => x.1 = y.1 ∧ x.2.Resembles p ρ n y.2)
      (changeDirection p params ⟨value, term, ramp⟩ σ)
      (changeDirection q params ⟨value', term', ramp⟩ τ) := by
  have last (ramp : Ramp Float32) {σ τ : Stage} (hs : σ.Matches p q ρ τ) :
      Echo (Stage.Matches p q ρ)
        (fun _ (x y : Status × TaskKind) => x.1 = y.1 ∧ x.2.Resembles p ρ n y.2)
        ((do
          modifyMotion fun m => { m with direction := m.direction + Angle.toRadians ramp.delta }
          pure (Turn.rampStatus ramp, .changeDirection ⟨value, term, some ramp⟩) :
            Play (Status × TaskKind)) σ)
        ((do
          modifyMotion fun m => { m with direction := m.direction + Angle.toRadians ramp.delta }
          pure (Turn.rampStatus ramp, .changeDirection ⟨value', term', some ramp⟩) :
            Play (Status × TaskKind)) τ) :=
    (echo_modifyMotion _ hs).bind fun _ _ _ _ hs _ => .ok hs ⟨rfl, .changeDirection hv ht⟩
  cases ramp with
  | some ramp => exact last ramp.step hs
  | none =>
    refine (echo_eval h hv params hs).bind ?_
    rintro a _ σ τ hs ⟨-, rfl⟩
    refine (echo_eval h ht params hs).bind ?_
    rintro b _ σ τ hs ⟨-, rfl⟩
    apply Echo.read
    simp only [h.mode value value' hv, hs.motion, hs.context]
    exact last _ hs

theorem echo_changeSpeed {value value' term term' : NodeId} (hv : ρ value value')
    (ht : ρ term term') (params : List Float32) (ramp : Option (Ramp Float32))
    (hs : σ.Matches p q ρ τ) :
    Echo (Stage.Matches p q ρ) (fun _ x y => x.1 = y.1 ∧ x.2.Resembles p ρ n y.2)
      (changeSpeed p params ⟨value, term, ramp⟩ σ)
      (changeSpeed q params ⟨value', term', ramp⟩ τ) := by
  have last (ramp : Ramp Float32) {σ τ : Stage} (hs : σ.Matches p q ρ τ) :
      Echo (Stage.Matches p q ρ)
        (fun _ (x y : Status × TaskKind) => x.1 = y.1 ∧ x.2.Resembles p ρ n y.2)
        ((do
          modifyMotion fun m => { m with speed := m.speed + ramp.delta }
          pure (Turn.rampStatus ramp, .changeSpeed ⟨value, term, some ramp⟩) :
            Play (Status × TaskKind)) σ)
        ((do
          modifyMotion fun m => { m with speed := m.speed + ramp.delta }
          pure (Turn.rampStatus ramp, .changeSpeed ⟨value', term', some ramp⟩) :
            Play (Status × TaskKind)) τ) :=
    (echo_modifyMotion _ hs).bind fun _ _ _ _ hs _ => .ok hs ⟨rfl, .changeSpeed hv ht⟩
  cases ramp with
  | some ramp => exact last ramp.step hs
  | none =>
    refine (echo_eval h hv params hs).bind ?_
    rintro a _ σ τ hs ⟨-, rfl⟩
    refine (echo_eval h ht params hs).bind ?_
    rintro b _ σ τ hs ⟨-, rfl⟩
    apply Echo.read
    simp only [h.mode value value' hv, hs.motion]
    exact last _ hs

theorem echo_axisRamp {axis axis' : Option NodeId} (hx : Option.Rel ρ axis axis')
    (params : List Float32) (current : Float32) (term : UInt32) (hs : σ.Matches p q ρ τ) :
    Echo (Stage.Matches p q ρ) (fun _ a b => a = b) (axisRamp p params current term axis σ)
      (axisRamp q params current term axis' τ) := by
  cases hx with
  | none => exact .ok hs rfl
  | @some a b hr =>
    refine (echo_eval h hr params hs).bind ?_
    rintro value _ σ τ hs ⟨-, rfl⟩
    rw [h.mode a b hr]
    exact .ok hs rfl

theorem echo_accel {x x' y y' : Option NodeId} {term term' : NodeId} (hx : Option.Rel ρ x x')
    (hy : Option.Rel ρ y y') (ht : ρ term term') (params : List Float32)
    (ramp : Option (Ramp Point)) (hs : σ.Matches p q ρ τ) :
    Echo (Stage.Matches p q ρ) (fun _ x y => x.1 = y.1 ∧ x.2.Resembles p ρ n y.2)
      (accel p params ⟨x, y, term, ramp⟩ σ) (accel q params ⟨x', y', term', ramp⟩ τ) := by
  have last (ramp : Ramp Point) {σ τ : Stage} (hs : σ.Matches p q ρ τ) :
      Echo (Stage.Matches p q ρ)
        (fun _ (x y : Status × TaskKind) => x.1 = y.1 ∧ x.2.Resembles p ρ n y.2)
        ((do
          modifyMotion fun m => { m with extraVelocity := m.extraVelocity + ramp.delta }
          pure (Turn.rampStatus ramp, .accel ⟨x, y, term, some ramp⟩) :
            Play (Status × TaskKind)) σ)
        ((do
          modifyMotion fun m => { m with extraVelocity := m.extraVelocity + ramp.delta }
          pure (Turn.rampStatus ramp, .accel ⟨x', y', term', some ramp⟩) :
            Play (Status × TaskKind)) τ) :=
    (echo_modifyMotion _ hs).bind fun _ _ _ _ hs _ => .ok hs ⟨rfl, .accel hx hy ht⟩
  cases ramp with
  | some ramp => exact last ramp.step hs
  | none =>
    apply Echo.read
    simp only [hs.motion]
    refine (echo_eval h ht params hs).bind ?_
    rintro b _ σ τ hs ⟨-, rfl⟩
    refine (echo_axisRamp h hx params _ _ hs).bind ?_
    rintro dx _ σ τ hs rfl
    refine (echo_axisRamp h hy params _ _ hs).bind ?_
    rintro dy _ σ τ hs rfl
    exact last _ hs

end Leaf

section Fire

variable (h : Pattern.Recasts move p q ρ)

theorem echo_expandFor {motion : Motion} {Q : α → β → Prop} {step : Binder → Expansion α}
    {step' : Binder → Expansion β}
    (hx : ∀ rank r, Echo Eq (fun _ => Q) (step ⟨p, rank, motion.bullet⟩ r)
      (step' ⟨q, rank, motion.bullet⟩ r)) (hs : σ.Matches p q ρ τ) :
    Echo (Stage.Matches p q ρ) (fun σ' a b => σ'.motion = σ.motion ∧ Q a b)
      (expandFor p motion step σ) (expandFor q motion step' τ) := by
  have hecho := hx σ.context.rank σ.context.random
  generalize hl : step _ _ = x at hecho
  generalize hr : step' _ _ = y at hecho
  rw [← hs.context] at hr
  have hrandom (r : Random) : Stage.Matches p q ρ
      { σ with context := { σ.context with random := r } }
      { τ with context := { τ.context with random := r } } :=
    ⟨hs.motion, by rw [hs.context], hs.room, hs.cast⟩
  cases hecho with
  | ok ha hq =>
    subst ha
    rw [expandFor_of_ok hl, expandFor_of_ok hr]
    exact .ok (hrandom _) ⟨rfl, hq⟩
  | error ha =>
    subst ha
    rw [expandFor_of_error hl, expandFor_of_error hr]
    exact .error (hrandom _)
  | limit =>
    rw [expandFor_of_error hl]
    exact .limit

theorem echo_orMiss {x : Play α} {y : Play β} (hx : Echo (Stage.Matches p q ρ) Q (x σ) (y τ)) :
    Echo (Stage.Matches p q ρ) Q (orMiss x σ) (orMiss y τ) := by
  generalize hl : x σ = u at hx
  generalize hr : y τ = v at hx
  cases hx with
  | ok hs hq =>
    rw [orMiss_of_ok hl, orMiss_of_ok hr]
    exact .ok hs hq
  | error hs =>
    rw [orMiss_of_error hl, orMiss_of_error hr]
    exact .error ⟨hs.motion, hs.context, congrArg Room.miss hs.room, hs.cast⟩
  | limit =>
    rw [orMiss_of_error hl]
    exact .limit

include h

theorem echo_evalSource {s s' : Option ValueSource}
    (hr : Option.Rel (fun s s' => s'.fromBullet = s.fromBullet ∧ ρ s.node s'.node) s s')
    (ps qs : List Float32) (hs : σ.Matches p q ρ τ) :
    Echo (Stage.Matches p q ρ) (fun _ a b => a = b) (evalSource p ps qs s σ)
      (evalSource q ps qs s' τ) := by
  cases hr with
  | none => exact .ok hs rfl
  | some hr =>
    rw [evalSource, evalSource, hr.1]
    exact (echo_eval h hr.2 _ hs).map fun _ _ _ he => congrArg some he.2

theorem sourceMode_eq {s s' : Option ValueSource}
    (hr : Option.Rel (fun s s' => s'.fromBullet = s.fromBullet ∧ ρ s.node s'.node) s s') :
    Turn.sourceMode q s' = Turn.sourceMode p s := by
  cases hr with
  | none => rfl
  | some hr => exact h.mode _ _ hr.2

theorem echo_resolve {st st' : FireState}
    (hd : Option.Rel (fun s s' => s'.fromBullet = s.fromBullet ∧ ρ s.node s'.node)
      st.direction st'.direction)
    (hv : Option.Rel (fun s s' => s'.fromBullet = s.fromBullet ∧ ρ s.node s'.node)
      st.speed st'.speed) (ps qs : List Float32) (hs : σ.Matches p q ρ τ) :
    Echo (Stage.Matches p q ρ) (fun _ a b => a = b) (resolve p ps qs st σ)
      (resolve q ps qs st' τ) := by
  refine (echo_evalSource h hd ps qs hs).bind ?_
  rintro direction _ σ τ hs rfl
  refine (echo_evalSource h hv ps qs hs).bind ?_
  rintro speed _ σ τ hs rfl
  apply Echo.read
  simp only [sourceMode_eq h hd, sourceMode_eq h hv, hs.motion, hs.context]
  exact .ok hs rfl

theorem echo_shoot {shot shot' : NodeId} (hr : ρ shot shot') (hne : p.element shot ≠ .action)
    (params : List Float32) (s : SequenceState) (hs : σ.Matches p q ρ τ) :
    Echo (Stage.Matches p q ρ) (fun _ _ _ => True) (shoot p shot params s σ)
      (shoot q shot' params s τ) := by
  apply Echo.read
  simp only [hs.motion]
  have hroots (bullet : Bullet) (rank : Float32) (r : Random) :=
    Binder.echo_roots h (h.shotActions hr hne) rank bullet params r
  refine (echo_orMiss (echo_expandFor (hroots _) hs)).bind ?_
  intro trees trees' σ τ hs ⟨_, ht⟩
  refine .ok ⟨hs.motion, ?_, congrArg Room.take hs.room, ?_⟩ trivial
  · exact congrArg (fun c : Context => { c with sequence := s }.countFired) hs.context
  · exact List.rel_append hs.cast (.cons ⟨rfl, ht⟩ .nil)

theorem echo_fire {st st' : FireState} {below below' : List WorkTree}
    (hk : (TaskKind.fire st).Resembles p ρ n (.fire st')) (hb : Resembles p q ρ false below below')
    (params : List Float32) (hs : σ.Matches p q ρ τ) :
    Echo (Stage.Matches p q ρ) (fun _ _ _ => True) (fire p params st below σ)
      (fire q params st' below' τ) := by
  cases hk with
  | fire hne hr hd hv =>
    cases hb with
    | nil => exact .ok hs trivial
    | keep =>
      by_cases hroom : σ.room.places = 0
      · rw [fire_of_full hroom, fire_of_full (by rw [hs.room]; exact hroom)]
        refine .ok ⟨hs.motion, ?_, hs.room, hs.cast⟩ trivial
        rw [hs.context]
      · rw [fire_of_room hroom, fire_of_room (by rw [hs.room]; exact hroom)]
        refine (echo_resolve h hd hv params _ hs).bind ?_
        rintro s _ σ τ hs rfl
        exact echo_shoot h hr hne _ s hs

end Fire

section Sequence

variable {play play' : WorkTree → Play (Status × WorkTree)} {ds : List WorkTree}
  {status answer : Status}

/-- The two answer alike, and unless the bullet has vanished, what they leave is alike too. -/
def Likewise (p q : Pattern) (ρ : NodeId → NodeId → Prop) (inAction : Bool) (σ : Stage)
    (x y : Status × List WorkTree) : Prop :=
  x.1 = y.1 ∧ (σ.motion.vanished = true ∨ Resembles p q ρ inAction x.2 y.2)

/-- What follows the first trees of a list once they have answered together. -/
def followAll (play : WorkTree → Play (Status × WorkTree)) (ws : List WorkTree) (status : Status)
    (x : Status × List WorkTree) : Play (Status × List WorkTree) := do
  if x.1 == .paused then pure (.paused, x.2 ++ ws)
  else if ← isVanished then pure (.ended, x.2 ++ ws)
  else
    let (status, ws) ← sequence play ws (x.1.after status)
    pure (status, x.2 ++ ws)

theorem follow_eq (play : WorkTree → Play (Status × WorkTree)) (ws : List WorkTree)
    (status : Status) (x : Status × WorkTree) :
    follow play ws status x = followAll play ws status (x.1, [x.2]) := rfl

theorem bind_of_eq {x y : Play α} {f : α → Play β} (h : x σ = y τ) :
    (x >>= f) σ = (y >>= f) τ := by
  cases hx : x σ with
  | ok a σ' => rw [bind_of_ok hx, bind_of_ok (h.symm.trans hx)]
  | error e σ' => rw [bind_of_error hx, bind_of_error (h.symm.trans hx)]

theorem followAll_of_vanished {x : Status × List WorkTree} (hx : x.1 ≠ .paused)
    (hv : σ.motion.vanished = true) (ws : List WorkTree) (status : Status) :
    followAll play ws status x σ = .ok (.ended, x.2 ++ ws) σ := by
  have vanished : isVanished σ = .ok true σ := congrArg (EStateM.Result.ok · σ) hv
  rw [followAll, if_neg (by simpa using hx), bind_of_ok vanished]
  rfl

theorem followAll_of_next {x : Status × List WorkTree} (hx : x.1 ≠ .paused)
    (hv : σ.motion.vanished = false) (ws : List WorkTree) (status : Status) :
    followAll play ws status x σ = (do
      let (status, ws) ← sequence play ws (x.1.after status)
      pure (status, x.2 ++ ws) : Play (Status × List WorkTree)) σ := by
  have vanished : isVanished σ = .ok false σ := congrArg (EStateM.Result.ok · σ) hv
  rw [followAll, if_neg (by simpa using hx), bind_of_ok vanished]
  rfl

theorem followAll_cons (d : WorkTree) (ws : List WorkTree) (status : Status)
    (x : Status × List WorkTree) :
    followAll play ws status (x.1, d :: x.2) =
      (do let y ← followAll play ws status x; pure (y.1, d :: y.2)) := by
  unfold followAll
  split
  · rw [pure_bind]
    rfl
  · rw [bind_assoc]
    apply bind_congr
    intro vanished
    split
    · rw [pure_bind]
      rfl
    · simp only [bind_assoc, pure_bind]
      rfl

/-- A list is played by playing its first part and then the rest. -/
theorem sequence_append (ha : answer ≠ .paused) (hv : σ.motion.vanished = false) :
    sequence play (ds ++ vs) (answer.after status) σ =
      (sequence play ds answer >>= followAll play vs status) σ := by
  induction ds generalizing answer σ with
  | nil =>
    have hpure : sequence play [] answer σ = .ok (answer, []) σ := rfl
    rw [bind_of_ok hpure, followAll_of_next ha hv, List.nil_append]
    exact (congrFun (bind_pure _) σ).symm
  | cons d ds ih =>
    have push (d : WorkTree) {answer : Status} (ha : answer ≠ .paused) {σ : Stage}
        (hv : σ.motion.vanished = false) :
        (do
          let (status, ws) ← sequence play (ds ++ vs) (answer.after status)
          pure (status, d :: ws) : Play (Status × List WorkTree)) σ =
        ((do
          let (status, ws) ← sequence play ds answer
          pure (status, d :: ws)) >>= followAll play vs status) σ := by
      have hall : (do
          let x ← sequence play ds answer
          let y ← followAll play vs status x
          pure (y.1, d :: y.2)) = ((do
          let (status, ws) ← sequence play ds answer
          pure (status, d :: ws)) >>= followAll play vs status) := by
        rw [bind_assoc]
        apply bind_congr
        intro x
        rw [← followAll_cons, pure_bind]
      rw [← hall, ← bind_assoc]
      exact bind_of_eq (ih ha hv)
    cases hf : d.isFinished with
    | true =>
      rw [List.cons_append, sequence_of_finished hf, sequence_of_finished hf]
      exact push d ha hv
    | false =>
      rw [List.cons_append, sequence_of_unfinished hf, sequence_of_unfinished hf, bind_assoc]
      cases hd : play d σ with
      | error e σ' => rw [bind_of_error hd, bind_of_error hd]
      | ok x σ' =>
        obtain ⟨a, d'⟩ := x
        rw [bind_of_ok hd, bind_of_ok hd]
        by_cases hp : a = .paused
        · subst hp
          rfl
        · cases hv' : σ'.motion.vanished with
          | true =>
            have hended : Status.ended ≠ .paused := nofun
            rw [follow_eq, follow_eq, followAll_of_vanished hp hv',
              bind_of_ok (followAll_of_vanished hp hv' ds answer),
              followAll_of_vanished hended hv', List.append_assoc]
          | false =>
            have hafter : a.after (answer.after status) = (a.after answer).after status := by
              cases a <;> rfl
            have hne : a.after answer ≠ .paused := by
              cases a with
              | ended => exact ha
              | ongoing => exact nofun
              | paused => exact absurd rfl hp
            rw [follow_eq, follow_eq, followAll_of_next hp hv', hafter,
              bind_of_eq (followAll_of_next hp hv' ds answer)]
            exact push d' hne hv'

theorem sequence_of_finished_append (hd : ∀ d ∈ ds, d.isFinished = true) (status : Status) :
    sequence play (ds ++ vs) status = (do
      let (status, ws) ← sequence play vs status
      pure (status, ds ++ ws)) := by
  induction ds with
  | nil => exact (bind_pure _).symm
  | cons d ds ih =>
    obtain ⟨hhead, htail⟩ := List.forall_mem_cons.1 hd
    rw [List.cons_append, sequence_of_finished hhead, ih htail, bind_assoc]
    apply bind_congr
    intro x
    rw [pure_bind]
    rfl

/-- A list that has ended as a whole has only trees that have finished. -/
theorem all_finished_of_ended {ds' : List WorkTree}
    (hp : ∀ {w w' σ σ'}, play w σ = .ok (.ended, w') σ' → w'.isFinished = true) {σ' : Stage}
    (h : sequence play ds status σ = .ok (.ended, ds') σ') (hv : σ'.motion.vanished = false) :
    status = .ended ∧ ∀ d ∈ ds', d.isFinished = true := by
  induction ds generalizing status ds' σ with
  | nil =>
    cases h
    exact ⟨rfl, nofun⟩
  | cons d ds ih =>
    cases hf : d.isFinished with
    | true =>
      rw [sequence_of_finished hf] at h
      obtain ⟨⟨_, _⟩, σ₁, hx, hpure⟩ := ok_of_bind h
      cases hpure
      obtain ⟨hs, hds⟩ := ih hx
      exact ⟨hs, List.forall_mem_cons.2 ⟨hf, hds⟩⟩
    | false =>
      rw [sequence_of_unfinished hf] at h
      obtain ⟨⟨a, d'⟩, σ₁, hd, h⟩ := ok_of_bind h
      rw [follow_eq] at h
      by_cases ha : a = .paused
      · subst ha
        cases h
      · cases hv₁ : σ₁.motion.vanished with
        | true =>
          rw [followAll_of_vanished ha hv₁] at h
          cases h
          rw [hv₁] at hv
          cases hv
        | false =>
          rw [followAll_of_next ha hv₁] at h
          obtain ⟨⟨_, _⟩, σ₂, hx, hpure⟩ := ok_of_bind h
          cases hpure
          obtain ⟨hs, hds⟩ := ih hx
          cases a with
          | ended => exact ⟨hs, List.forall_mem_cons.2 ⟨hp hd, hds⟩⟩
          | ongoing => cases hs
          | paused => exact absurd rfl ha

theorem isVanished_bind (f : Bool → Play α) : (isVanished >>= f) σ = f σ.motion.vanished σ := rfl

/-- What follows trees that have answered alike goes on alike. -/
theorem echo_followAll {x y : Status × List WorkTree} (hx : Likewise p q ρ inAction σ x y)
    (hs : σ.Matches p q ρ τ) (hw : Resembles p q ρ inAction ws vs)
    (rest : ∀ {σ τ} (status : Status), σ.Matches p q ρ τ → σ.motion.vanished = false →
      Echo (Stage.Matches p q ρ) (Likewise p q ρ inAction) (sequence play ws status σ)
        (sequence play' vs status τ)) :
    Echo (Stage.Matches p q ρ) (Likewise p q ρ inAction) (followAll play ws status x σ)
      (followAll play' vs status y τ) := by
  obtain ⟨a, us⟩ := x
  obtain ⟨_, xs⟩ := y
  obtain ⟨rfl, hus⟩ := hx
  have hv' : τ.motion.vanished = σ.motion.vanished := congrArg Motion.vanished hs.motion
  by_cases hp : a = .paused
  · subst hp
    exact .ok hs ⟨rfl, hus.imp_right fun hus => hus.append hw⟩
  · cases hv : σ.motion.vanished with
    | true =>
      rw [followAll_of_vanished hp hv, followAll_of_vanished hp (hv'.trans hv)]
      exact .ok hs ⟨rfl, .inl hv⟩
    | false =>
      rw [followAll_of_next hp hv, followAll_of_next hp (hv'.trans hv)]
      refine (rest _ hs hv).bind ?_
      rintro ⟨b, ws'⟩ ⟨_, vs'⟩ σ' τ' hs' ⟨rfl, hrest⟩
      refine .ok hs' ⟨rfl, hrest.imp_right fun hrest => ?_⟩
      exact (hus.resolve_left (by rw [hv]; exact nofun)).append hrest

end Sequence

section Phase

theorem phase_ended (ph : Phase) : phase ph .ended = .finished := by
  cases ph <;> rfl

theorem phase_of_going {ph : Phase} {status : Status} (hp : ph ≠ .finished)
    (hs : status ≠ .ended) : phase ph status ≠ .finished := by
  cases ph with
  | finished => exact absurd rfl hp
  | parsed => cases status <;> first | exact absurd rfl hs | exact nofun
  | running => cases status <;> first | exact absurd rfl hs | exact nofun

/-- A tree has finished once it has ended, and not before. -/
theorem isFinished_tree {fuel : Nat} {status : Status} {w' : WorkTree} {σ' : Stage}
    (h : tree p fuel w σ = .ok (status, w') σ') :
    w'.isFinished = true ↔ status = .ended := by
  cases fuel with
  | zero => cases h
  | succ fuel =>
    obtain ⟨n, params, k, ph, below⟩ := w
    by_cases hp : ph = .finished
    · subst hp
      cases h
      exact ⟨fun _ => rfl, fun _ => rfl⟩
    · rw [tree, if_neg (by simpa using hp)] at h
      obtain ⟨⟨status, k, below⟩, σ₁, _, hpure⟩ := ok_of_bind h
      cases hpure
      rw [WorkTree.isFinished, beq_iff_eq]
      constructor
      · intro hf
        by_contra hs
        exact phase_of_going hp hs hf
      · rintro rfl
        exact phase_ended ph

end Phase

end Play
end Barrage

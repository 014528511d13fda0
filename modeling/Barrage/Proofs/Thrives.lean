import Barrage.Proofs.Headroom

namespace Barrage

/-- All tasks of the actor have the room that they need. -/
def Actor.Ample (p : Pattern) (a : Actor) : Prop := ∀ w ∈ a.roots, w.Ample p maxTaskChain

def Stage.Ample (p : Pattern) (σ : Stage) : Prop := ∀ actor ∈ σ.cast, actor.Ample p

namespace Play

/-- The play succeeds with an answer for which `Q` holds, and all it fires has room. -/
def Thrives {α : Type} (p : Pattern) (Q : α → Prop) (m : Play α) : Prop :=
  ∀ σ, σ.Ample p → ∃ a σ', m σ = .ok a σ' ∧ Q a ∧ σ'.Ample p

variable {α β : Type} {p : Pattern} {Q : α → Prop} {R : β → Prop} {m : Play α} {f : α → Play β}
  {n : Nat} {node : NodeId} {params : List Float32}

section Laws

theorem Thrives.pure {a : α} (hq : Q a) : Thrives p Q (pure a) := fun σ h => ⟨a, σ, rfl, hq, h⟩

theorem Thrives.bind (hm : Thrives p Q m) (hf : ∀ a, Q a → Thrives p R (f a)) :
    Thrives p R (m >>= f) := by
  intro σ h
  obtain ⟨a, σ₁, hx, hq, h₁⟩ := hm σ h
  obtain ⟨b, σ₂, hy, hr, h₂⟩ := hf a hq σ₁ h₁
  exact ⟨b, σ₂, (bind_of_ok hx).trans hy, hr, h₂⟩

theorem Thrives.next (hm : Thrives p Q m) (hf : ∀ a, Thrives p R (f a)) : Thrives p R (m >>= f) :=
  hm.bind fun a _ => hf a

theorem Thrives.known {a : α} (hf : Thrives p R (f a)) : Thrives p R (Pure.pure a >>= f) := hf

theorem Thrives.map {g : α → β} (hm : Thrives p Q m) (hg : ∀ a, Q a → R (g a)) :
    Thrives p R (g <$> m) := by
  rw [map_eq_pure_bind]
  exact hm.bind fun a hq => .pure (hg a hq)

theorem Thrives.get : Thrives p (fun _ => True) get := fun σ h => ⟨σ, σ, rfl, trivial, h⟩

theorem Thrives.modify {f : Stage → Stage} (hf : ∀ σ, σ.Ample p → (f σ).Ample p) :
    Thrives p (fun _ => True) (modify f : Play Unit) :=
  fun σ h => ⟨(), f σ, rfl, trivial, hf σ h⟩

end Laws

section Leaf

theorem thrives_modifyMotion (g : Motion → Motion) :
    Thrives p (fun _ => True) (modifyMotion g) := .modify fun _ h => h

theorem thrives_isVanished : Thrives p (fun _ => True) isVanished :=
  Thrives.get.next fun _ => .pure trivial

theorem thrives_eval (p : Pattern) (n : NodeId) (params : List Float32) :
    Thrives p (fun _ => True) (eval p n params) := fun _ h => ⟨_, _, rfl, trivial, h⟩

variable (p) (node) (params)

theorem thrives_wait (remaining : Option UInt32) :
    Thrives p (fun x => x.2.isRepeat = false) (wait p node params remaining) := by
  have counted (n : UInt32) : Thrives p (fun x => x.2.isRepeat = false)
      (if n == 0 then pure (.ended, .wait (some 0)) else pure (.paused, .wait (some (n - 1))) :
        Play (Status × TaskKind)) := by
    split
    · exact .pure rfl
    · exact .pure rfl
  cases remaining with
  | some n => exact counted n
  | none =>
    have count : Thrives p (fun _ => True) (Binary32.toCount <$> eval p node params) :=
      (thrives_eval p node params).map fun _ _ => trivial
    exact count.next counted

theorem thrives_changeDirection (change : ChangeState) :
    Thrives p (fun x => x.2.isRepeat = false) (changeDirection p params change) := by
  unfold changeDirection
  cases change.ramp with
  | some ramp => exact .known ((thrives_modifyMotion _).next fun _ => .pure rfl)
  | none =>
    exact (thrives_eval p _ params).next fun _ => (thrives_eval p _ params).next fun _ =>
      Thrives.get.next fun _ => .known ((thrives_modifyMotion _).next fun _ => .pure rfl)

theorem thrives_changeSpeed (change : ChangeState) :
    Thrives p (fun x => x.2.isRepeat = false) (changeSpeed p params change) := by
  unfold changeSpeed
  cases change.ramp with
  | some ramp => exact .known ((thrives_modifyMotion _).next fun _ => .pure rfl)
  | none =>
    exact (thrives_eval p _ params).next fun _ => (thrives_eval p _ params).next fun _ =>
      Thrives.get.next fun _ => .known ((thrives_modifyMotion _).next fun _ => .pure rfl)

theorem thrives_axisRamp (current : Float32) (term : UInt32) (axis : Option NodeId) :
    Thrives p (fun _ => True) (axisRamp p params current term axis) := by
  cases axis with
  | none => exact .pure trivial
  | some n => exact (thrives_eval p n params).next fun _ => .pure trivial

theorem thrives_accel (state : AccelState) :
    Thrives p (fun x => x.2.isRepeat = false) (accel p params state) := by
  unfold accel
  cases state.ramp with
  | some ramp => exact .known ((thrives_modifyMotion _).next fun _ => .pure rfl)
  | none =>
    exact Thrives.get.next fun _ => (thrives_eval p _ params).next fun _ =>
      (thrives_axisRamp p params _ _ _).next fun _ => (thrives_axisRamp p params _ _ _).next fun _ =>
        .known ((thrives_modifyMotion _).next fun _ => .pure rfl)

end Leaf

section Fire

theorem thrives_evalSource (p : Pattern) (ps qs : List Float32) (source : Option ValueSource) :
    Thrives p (fun _ => True) (evalSource p ps qs source) := by
  cases source with
  | none => exact .pure trivial
  | some source => exact (thrives_eval p _ _).map fun _ _ => trivial

theorem thrives_resolve (p : Pattern) (ps qs : List Float32) (state : FireState) :
    Thrives p (fun _ => True) (resolve p ps qs state) :=
  (thrives_evalSource p ps qs _).next fun _ => (thrives_evalSource p ps qs _).next fun _ =>
    Thrives.get.next fun _ => .pure trivial

theorem thrives_expandFor (motion : Motion) {step : Binder → Expansion α}
    (hs : ∀ b, b.pattern = p → ∀ r, ∃ a r', step b r = .ok a r' ∧ Q a) :
    Thrives p Q (expandFor p motion step) := by
  intro σ h
  obtain ⟨a, r, hx, hq⟩ := hs ⟨p, σ.context.rank, motion.bullet⟩ rfl σ.context.random
  exact ⟨a, _, expandFor_of_ok hx, hq, h⟩

theorem Thrives.orMiss {m : Play α} (h : Thrives p Q m) : Thrives p Q (orMiss m) := by
  intro σ hσ
  obtain ⟨a, σ', hm, hrest⟩ := h σ hσ
  exact ⟨a, σ', orMiss_of_ok hm, hrest⟩

/-- The actions of a bullet can be bound as roots, wherever the bullet stands. -/
theorem thrives_shoot (hp : p.Roomy) (bullet : NodeId) (params : List Float32)
    (q : SequenceState) : Thrives p (fun _ => True) (shoot p bullet params q) := by
  have hactions (c : NodeId) (hc : c ∈ Turn.shotActions p bullet) : p.Has c :=
    hp.closed.children bullet c (List.mem_of_mem_filter hc)
  have hroots (b : Binder) (hb : b.pattern = p) (r : Random) : ∃ trees r',
      Binder.expandChildren (b.expandNode (maxNestDepth + 1)) params (Turn.shotActions p bullet) r =
        .ok trees r' ∧ ∀ w ∈ TaskTree.freshAll trees, w.Ample p maxTaskChain := by
    subst hb
    exact Binder.expandRoots_ok hp params hactions r
  apply Thrives.get.next
  intro σ
  apply (thrives_expandFor _ hroots).orMiss.bind
  intro trees ht
  apply Thrives.modify
  intro σ h actor ha
  rcases List.mem_append.1 ha with ha | ha
  · exact h actor ha
  · rw [List.mem_singleton.1 ha]
    exact ht

theorem thrives_fire (hp : p.Roomy) (params : List Float32) (state : FireState)
    (ws : List WorkTree) : Thrives p (fun _ => True) (fire p params state ws) := by
  cases ws with
  | nil => exact .pure trivial
  | cons w ws =>
    cases w with
    | node n bulletParams kind phase below =>
      apply Thrives.get.next
      intro σ
      split
      · exact .modify fun _ h => h
      · exact (thrives_resolve p params bulletParams state).next fun q =>
          thrives_shoot hp state.bullet bulletParams q

end Fire

section Tree

variable {play : WorkTree → Play (Status × WorkTree)} {ws : List WorkTree} {w : WorkTree}

/-- Trees with chains up to `n` are played well. -/
def Masters (p : Pattern) (n : Nat) (play : WorkTree → Play (Status × WorkTree)) : Prop :=
  ∀ w, w.Ample p n → Thrives p (fun x => x.2.Ample p n) (play w)

theorem Masters.sequence (hm : Masters p n play) (hs : ∀ w ∈ ws, w.Ample p n) (status : Status) :
    Thrives p (fun x => ∀ w ∈ x.2, w.Ample p n) (sequence play ws status) := by
  induction ws generalizing status with
  | nil => exact .pure nofun
  | cons w ws ih =>
    obtain ⟨hself, hrest⟩ := List.forall_mem_cons.1 hs
    rw [Play.sequence]
    split
    · apply (ih hrest status).bind
      exact fun x hx => .pure (List.forall_mem_cons.2 ⟨hself, hx⟩)
    · apply (hm w hself).bind
      rintro ⟨answer, w'⟩ hx
      have hall : ∀ v ∈ w' :: ws, v.Ample p n := List.forall_mem_cons.2 ⟨hx, hrest⟩
      simp only
      split
      · exact .pure hall
      · apply thrives_isVanished.next
        intro vanished
        split
        · exact .pure hall
        · apply (ih hrest _).bind
          exact fun y hy => .pure (List.forall_mem_cons.2 ⟨hx, hy⟩)

theorem thrives_times (p : Pattern) (node : NodeId) (params : List Float32)
    (state : RepeatState) : Thrives p (fun _ => True) (times p node params state) := by
  unfold times
  cases state.times with
  | some times => exact .pure trivial
  | none =>
    cases p.child? node .times with
    | none => exact .pure trivial
    | some n =>
      have count : Thrives p (fun _ => True) (Binary32.toCount <$> eval p n params) :=
        (thrives_eval p n params).map fun _ _ => trivial
      exact count.next fun _ => .pure trivial

/-- Every body of an ample `repeat` can be bound when it is due. -/
theorem Masters.bodies (hm : Masters p n play) (hp : p.Roomy) {state : RepeatState}
    (hk : (TaskKind.repeat state).Ample p node n) (params : List Float32) (left : Nat)
    (done : UInt32) (hs : ∀ w ∈ ws, w.Ample p n) :
    Thrives p (fun x => ∀ w ∈ x.2.2, w.Ample p n)
      (bodies p node params play state.room left done ws) := by
  have hbody (b : Binder) (hb : b.pattern = p) (r : Random) : ∃ tree r',
      b.expandBody (b.expandNode state.room) node params r = .ok tree r' ∧
        tree.fresh.Ample p n := by
    subst hb
    exact Binder.expandBody_ok hp hk params r
  induction left generalizing done ws with
  | zero => exact .pure nofun
  | succ left ih =>
    cases ws with
    | nil => exact .pure nofun
    | cons w ws =>
      apply (hm w (hs w List.mem_cons_self)).bind
      rintro ⟨answer, w'⟩ hx
      simp only
      split
      · apply thrives_isVanished.next
        intro vanished
        split
        · exact .pure nofun
        · apply Thrives.get.next
          intro σ
          apply (thrives_expandFor _ hbody).bind
          exact fun tree ht => ih _ (List.forall_mem_singleton.2 ht)
      · exact .pure (List.forall_mem_singleton.2 hx)

theorem Masters.kind (hm : Masters p n play) (hp : p.Roomy) {kind : TaskKind}
    (hk : kind.Ample p node n) (params : List Float32) (hs : ∀ w ∈ ws, w.Ample p n) :
    Thrives p (fun x => x.2.1.Ample p node n ∧ ∀ w ∈ x.2.2, w.Ample p n)
      (Play.kind p play node params ws kind) := by
  have leaf {m : Play (Status × TaskKind)} (h : Thrives p (fun x => x.2.isRepeat = false) m) :
      Thrives p (fun x => x.2.1.Ample p node n ∧ ∀ w ∈ x.2.2, w.Ample p n) (do
        let x ← m
        pure (x.1, x.2, ws) : Play (Status × TaskKind × List WorkTree)) := by
    apply h.bind
    exact fun x hx => .pure ⟨TaskKind.ample_of_not_repeat hx, hs⟩
  cases kind with
  | action =>
    apply (hm.sequence hs .ended).bind
    exact fun x hx => .pure ⟨trivial, hx⟩
  | bullet =>
    apply (hm.sequence hs .ended).bind
    exact fun x hx => .pure ⟨trivial, hx⟩
  | «repeat» state =>
    apply (thrives_times p node params state).next
    intro times
    apply (hm.bodies hp hk params _ state.done hs).bind
    exact fun x hx => .pure ⟨hk, hx⟩
  | fire state =>
    apply (thrives_fire hp params state ws).next
    exact fun _ => .pure ⟨trivial, hs⟩
  | changeDirection state => exact leaf (thrives_changeDirection p params state)
  | changeSpeed state => exact leaf (thrives_changeSpeed p params state)
  | accel state => exact leaf (thrives_accel p params state)
  | wait remaining => exact leaf (thrives_wait p node params remaining)
  | vanish =>
    apply (thrives_modifyMotion _).next
    exact fun _ => .pure ⟨trivial, hs⟩

end Tree

end Play
end Barrage

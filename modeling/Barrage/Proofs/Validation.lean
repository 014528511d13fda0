import Barrage.Proofs.Host

namespace Barrage

namespace Binder
open Binding Expansion

variable {α β γ δ : Type} {R : α → β → Prop} {S : γ → δ → Prop} {m : Binding α} {x : Expansion β}
  {b : Binder} {child beyond : NodeBinder} {child' beyond' : NodeExpander}

/-- Both succeed with related results, or both fail alike, whatever became of the arena. -/
inductive Agrees (R : α → β → Prop) :
    EStateM.Result PatternError BindState α → EStateM.Result PatternError Random β → Prop where
  | ok {a : α} {b : β} {tasks : Arena} {r : Random} (h : R a b) :
      Agrees R (.ok a ⟨tasks, r⟩) (.ok b r)
  | error {e : PatternError} {tasks : Arena} {r : Random} :
      Agrees R (.error e ⟨tasks, r⟩) (.error e r)

/-- The steps on the left come out like those on the right, whatever the arena. -/
def Mirrors (R : α → β → Prop) (m : Binding α) (x : Expansion β) : Prop :=
  ∀ s, Agrees R (m s) (x s.random)

/-- The step only touches the arena. -/
def Silent (m : Binding α) : Prop := ∀ s, ∃ a tasks, m s = .ok a ⟨tasks, s.random⟩

theorem silent_insert (node : NodeId) (owner : Option TaskId) (params : List Float32)
    (kind : TaskKind) : Silent (insert node owner params kind) := fun _ => ⟨_, _, rfl⟩

theorem silent_adopt (parent child : TaskId) : Silent (adopt parent child) :=
  fun _ => ⟨_, _, rfl⟩

namespace Mirrors

theorem pure {a : α} {c : β} (h : R a c) : Mirrors R (Pure.pure a) (Pure.pure c) :=
  fun ⟨_, _⟩ => .ok h

theorem throw {e : PatternError} : Mirrors R (MonadExcept.throw e) (MonadExcept.throw e) :=
  fun ⟨_, _⟩ => .error

theorem bind {f : α → Binding γ} {k : β → Expansion δ} (hm : Mirrors R m x)
    (hf : ∀ a c, R a c → Mirrors S (f a) (k c)) : Mirrors S (m >>= f) (x >>= k) := by
  intro s
  have h := hm s
  generalize hl : m s = rm at h
  generalize hr : x s.random = rx at h
  cases h with
  | ok h =>
    rw [bind_of_ok hl, bind_of_ok hr]
    exact hf _ _ h ⟨_, _⟩
  | error =>
    rw [bind_of_error hl, bind_of_error hr]
    exact .error

theorem before {f : γ → Binding α} {n : Binding γ} (hn : Silent n)
    (hf : ∀ c, Mirrors R (f c) x) : Mirrors R (n >>= f) x := by
  intro s
  obtain ⟨c, tasks, hs⟩ := hn s
  rw [bind_of_ok hs]
  exact hf c ⟨tasks, s.random⟩

theorem after {f : α → Binding γ} (hm : Mirrors R m x) (hf : ∀ a, Silent (f a)) :
    Mirrors (fun _ _ => True) (m >>= f) x := by
  intro s
  have h := hm s
  generalize hl : m s = rm at h
  generalize hr : x s.random = rx at h
  cases h with
  | @ok a _ tasks r _ =>
    obtain ⟨c, tasks', hs⟩ := hf a ⟨tasks, r⟩
    rw [bind_of_ok hl, hs]
    exact .ok trivial
  | error =>
    rw [bind_of_error hl]
    exact .error

theorem map_right {k : β → δ} {T : α → δ → Prop} (hm : Mirrors R m x)
    (hT : ∀ a c, R a c → T a (k c)) : Mirrors T m (x >>= fun c => Pure.pure (k c)) := by
  rw [← bind_pure m]
  exact hm.bind fun a c h => .pure (hT a c h)

theorem map_some (hm : Mirrors R m x) :
    Mirrors (fun a c => a.isSome = c.isSome) (some <$> m) (some <$> x) := by
  rw [map_eq_pure_bind, map_eq_pure_bind]
  exact hm.bind fun _ _ _ => .pure rfl

theorem orRelease (hm : Mirrors R m x) (ids : List TaskId) :
    Mirrors R (Binding.orRelease ids m) x := by
  intro s
  have h := hm s
  unfold Binding.orRelease
  generalize m s = rm at h
  generalize x s.random = rx at h
  cases h with
  | ok h => exact .ok h
  | error => exact .error

end Mirrors

theorem mirrors_require (found : Except PatternError α) :
    Mirrors Eq (Binding.require found) (Expansion.require found) := by
  cases found with
  | ok a => exact .pure rfl
  | error e => exact .throw

theorem mirrors_passed (ref : NodeId) (params : List Float32) :
    Mirrors Eq (b.passedParams ref params) (b.passed ref params) := fun ⟨_, _⟩ => .ok rfl

/-- The binder comes out like the expander, for every node and whatever the arena. -/
def Reflects (child : NodeBinder) (child' : NodeExpander) : Prop :=
  ∀ node owner params,
    Mirrors (fun id tree => id.isSome = tree.isSome) (child node owner params) (child' node params)

theorem Reflects.children (hf : Reflects child child') (parent : TaskId) (params : List Float32)
    (nodes : List NodeId) :
    Mirrors (fun _ _ => True) (nodes.forM (bindInto child parent params))
      (expandChildren child' params nodes) := by
  induction nodes with
  | nil => exact .pure trivial
  | cons c cs ih =>
    rw [forM_cons, expandChildren]
    have hc : Mirrors (fun _ _ => True) (bindInto child parent params c) (child' c params) := by
      apply (hf c (some parent) params).after
      intro id
      cases id with
      | none => exact fun s => ⟨(), s.tasks, rfl⟩
      | some id => exact silent_adopt parent id
    exact hc.bind fun _ _ _ => ih.map_right fun _ _ h => h

theorem Reflects.action (hf : Reflects child child') (node : NodeId) (owner : Option TaskId)
    (params : List Float32) :
    Mirrors (fun _ _ => True) (b.bindAction child node owner params)
      (b.expandAction child' node params) := by
  apply Mirrors.before (silent_insert _ _ _ _)
  intro id
  exact ((hf.children id params (b.pattern.children node)).orRelease [id]).bind fun _ _ _ =>
    .pure trivial

theorem Reflects.body (hf : Reflects child child') (node : NodeId) (owner : TaskId)
    (params : List Float32) :
    Mirrors (fun _ _ => True) (b.bindBody child node owner params)
      (b.expandBody child' node params) := by
  unfold bindBody expandBody
  cases b.pattern.child? node .action <|> b.pattern.child? node .actionRef with
  | none => exact .throw
  | some body =>
    apply (hf body (some owner) params).bind
    intro id tree h
    cases id <;> cases tree <;> cases h
    · exact .throw
    · exact .pure trivial

theorem Reflects.repeat (hf : Reflects child child') (room : Nat) (node : NodeId)
    (owner : Option TaskId) (params : List Float32) :
    Mirrors (fun _ _ => True) (b.bindRepeat room child node owner params)
      (b.expandRepeat room child' node params) := by
  apply (mirrors_require _).bind
  intro _ _ _
  apply Mirrors.before (silent_insert _ _ _ _)
  intro id
  have hbody := (hf.body (b := b) node id params).after (silent_adopt id)
  exact (hbody.orRelease [id]).bind fun _ _ _ => .pure trivial

theorem mirrors_bullet (fire : NodeId) (params : List Float32) :
    Mirrors Eq (b.fireBullet fire params) (b.expandBullet fire params) := by
  unfold fireBullet expandBullet
  cases b.pattern.child? fire .bullet with
  | some bullet => exact .pure rfl
  | none =>
    cases b.pattern.child? fire .bulletRef with
    | none => exact .throw
    | some ref =>
      apply (mirrors_require _).bind
      intro bullet _ hb
      apply (mirrors_passed ref params).bind
      intro values _ hv
      rw [hb, hv]
      exact .pure rfl

theorem mirrors_fire (fire : NodeId) (owner : Option TaskId) (params : List Float32) :
    Mirrors (fun _ _ => True) (b.bindFire fire owner params) (b.expandFire fire params) := by
  apply (mirrors_bullet fire params).bind
  intro bullet _ _
  apply Mirrors.before (silent_insert _ _ _ _)
  intro id
  apply Mirrors.before (silent_insert _ _ _ _)
  intro held
  exact .before (silent_adopt id held) fun _ => .pure trivial

theorem mirrors_fireRef (room : Nat) (ref : NodeId) (owner : Option TaskId)
    (params : List Float32) :
    Mirrors (fun _ _ => True) (b.bindFireRef room ref owner params)
      (b.expandFireRef room ref params) := by
  apply (mirrors_require _).bind
  intro fire _ hfire
  apply (mirrors_passed ref params).bind
  intro values _ hv
  rw [← hfire, ← hv]
  cases room with
  | zero => exact .throw
  | succ room => exact mirrors_fire fire owner values

theorem mirrors_change (kind : ChangeState → TaskKind) (value : Element) (node : NodeId)
    (owner : Option TaskId) (params : List Float32) :
    Mirrors (fun _ _ => True) (b.bindChange kind value node owner params)
      (b.expandChange kind value node params) := by
  apply (mirrors_require _).bind
  intro _ _ _
  apply (mirrors_require _).bind
  intro _ _ _
  exact fun ⟨_, _⟩ => .ok trivial

theorem mirrors_accel (node : NodeId) (owner : Option TaskId) (params : List Float32) :
    Mirrors (fun _ _ => True) (b.bindAccel node owner params) (b.expandAccel node params) := by
  apply (mirrors_require _).bind
  intro _ _ _
  exact fun ⟨_, _⟩ => .ok trivial

theorem Reflects.over (hc : Reflects child child') (hb : Reflects beyond beyond') (room : Nat) :
    Reflects (b.bindOver room child beyond) (b.expandOver room child' beyond') := by
  intro node owner params
  unfold bindOver expandOver
  cases b.pattern.element node with
  | action => exact (hc.action node owner params).map_some
  | actionRef =>
    apply (mirrors_require _).bind
    intro target _ ht
    apply (mirrors_passed node params).bind
    intro values _ hv
    rw [← ht, ← hv]
    exact (hb.action target owner values).map_some
  | fire => exact (mirrors_fire node owner params).map_some
  | fireRef => exact (mirrors_fireRef room node owner params).map_some
  | «repeat» => exact (hc.repeat room node owner params).map_some
  | wait => exact fun ⟨_, _⟩ => .ok rfl
  | vanish => exact fun ⟨_, _⟩ => .ok rfl
  | changeDirection => exact (mirrors_change _ _ node owner params).map_some
  | changeSpeed => exact (mirrors_change _ _ node owner params).map_some
  | accel => exact (mirrors_accel node owner params).map_some
  | _ => exact fun ⟨_, _⟩ => .ok rfl

theorem Mirrors.raises {p : Pattern} {Q : β → Prop} {e : PatternError} {s s' : BindState}
    (hm : Mirrors R m x) (hy : Yields True p x Q) (h : m s = .error e s') : p.Raises e := by
  have hs := hm s
  have hr := hy s.random
  rw [h] at hs
  generalize x s.random = rx at hs hr
  cases hs with
  | error => exact hr trivial

theorem Mirrors.ok {c : β} {r : Random} {s : BindState} (hm : Mirrors R m x)
    (h : x s.random = .ok c r) : ∃ a s', m s = .ok a s' := by
  have hs := hm s
  rw [h] at hs
  generalize m s = rm at hs
  cases hs with
  | @ok a => exact ⟨a, _, rfl⟩

end Binder

namespace Simulation

variable {Q : Pattern → Prop} {issued : List BulletId} {s : Simulation} {p : Pattern}
  {e : PatternError}

end Simulation
end Barrage

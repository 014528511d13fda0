import Barrage.Proofs.Play

namespace Barrage

/-- Whether the expression draws no random numbers. -/
def Expr.isSteady : Expr → Bool
  | .rand => false
  | .neg e => e.isSteady
  | .binary _ a b => a.isSteady && b.isSteady
  | _ => true

theorem Expr.eval_of_steady {e : Expr} (h : e.isSteady = true) (scope : Scope) (r r' : Random) :
    (e.eval scope r).1 = (e.eval scope r').1 := by
  induction e generalizing r r' with
  | rand => cases h
  | neg e ih => exact congrArg (-·) (ih h r r')
  | binary op a b iha ihb =>
    rw [isSteady, Bool.and_eq_true] at h
    exact congrArg₂ op.apply (iha h.1 r r') (ihb h.2 _ _)
  | _ => rfl

namespace Pattern

/-- A fire of the pattern, and a bullet that it can fire. -/
structure Fires (p : Pattern) (fire bullet : NodeId) : Prop where
  named : p.element fire = .fire ∨ ∃ ref, p.element ref = .fireRef ∧ p.resolve ref = .ok fire
  held : p.child? fire .bullet = some bullet ∨ p.child? fire .bullet = none ∧
    ∃ ref, p.child? fire .bulletRef = some ref ∧ p.resolve ref = .ok bullet

/-- The mode of the direction or the speed that a fire gives to its bullet: its own one, or else
that of the bullet. -/
def fireMode (p : Pattern) (fire bullet : NodeId) (e : Element) : Option Mode :=
  (p.child? fire e <|> p.child? bullet e).bind p.mode

/-- The pattern uses nothing that it shares with others but the room for bullets: it draws no random
numbers, and no fire goes on from the direction or the speed of the fire before it. -/
structure Tame (p : Pattern) : Prop where
  steady : ∀ n e, (p.node n).expr = some e → e.isSteady = true
  direction : ∀ fire bullet, p.Fires fire bullet →
    p.fireMode fire bullet .direction ≠ some .sequence
  speed : ∀ fire bullet, p.Fires fire bullet → p.fireMode fire bullet .speed ≠ some .sequence

variable {p : Pattern}

/-- Whether no node draws random numbers, and none is in sequence mode. -/
def isPlain (p : Pattern) : Bool :=
  p.nodes.all fun n => n.expr.all Expr.isSteady && n.mode != some .sequence

theorem plain_node (h : p.isPlain = true) (n : NodeId) :
    (p.node n).expr.all Expr.isSteady = true ∧ p.mode n ≠ some .sequence := by
  unfold Pattern.mode Pattern.node Pattern.node?
  cases hn : p.nodes[n.index]? with
  | none => exact ⟨rfl, nofun⟩
  | some node =>
    have hnode := Array.all_eq_true_iff_forall_mem.1 h node (Array.mem_of_getElem? hn)
    simpa using hnode

theorem tame_of_plain (h : p.isPlain = true) : p.Tame := by
  have hmode (fire bullet e) : p.fireMode fire bullet e ≠ some .sequence := by
    intro he
    obtain ⟨n, _, hn⟩ := Option.bind_eq_some_iff.1 he
    exact (plain_node h n).2 hn
  constructor
  · intro n e he
    have hsteady := (plain_node h n).1
    rwa [he] at hsteady
  · exact fun fire bullet _ => hmode fire bullet .direction
  · exact fun fire bullet _ => hmode fire bullet .speed

theorem Tame.evalNode (h : p.Tame) (n : NodeId) (scope : Scope) (r r' : Random) :
    (p.evalNode n scope r).1 = (p.evalNode n scope r').1 := by
  unfold Pattern.evalNode
  cases he : (p.node n).expr with
  | none => rfl
  | some e => exact Expr.eval_of_steady (h.steady n e he) scope r r'

theorem Tame.evalNodes (h : p.Tame) (ns : List NodeId) (scope : Scope) (r r' : Random) :
    (p.evalNodes scope ns r).1 = (p.evalNodes scope ns r').1 := by
  induction ns generalizing r r' with
  | nil => rfl
  | cons n ns ih => exact congrArg₂ List.cons (h.evalNode n scope r r') (ih _ _)

theorem sourceMode_locate (b : Binder) (fire bullet : NodeId) (e : Element) :
    Turn.sourceMode b.pattern (b.locate fire bullet e) = b.pattern.fireMode fire bullet e := by
  unfold Turn.sourceMode Binder.locate fireMode
  cases b.pattern.child? fire e with
  | some n => rfl
  | none =>
    cases b.pattern.child? bullet e with
    | some n => rfl
    | none => rfl

end Pattern

/-- A fire of this kind does not go on from the fire before it. -/
def TaskKind.Calm (p : Pattern) : TaskKind → Prop
  | .fire state => Turn.sourceMode p state.direction ≠ some .sequence ∧
    Turn.sourceMode p state.speed ≠ some .sequence
  | _ => True

/-- No fire in the tree goes on from the fire before it. -/
inductive WorkTree.Calm (p : Pattern) : WorkTree → Prop where
  | node {n : NodeId} {params : List Float32} {kind : TaskKind} {phase : Phase}
      {children : List WorkTree} (hk : kind.Calm p) (hc : ∀ w ∈ children, Calm p w) :
      Calm p (.node n params kind phase children)

theorem TaskTree.freshAll_eq (trees : List TaskTree) : freshAll trees = trees.map fresh := by
  induction trees with
  | nil => rfl
  | cons tree trees ih => exact congrArg (tree.fresh :: ·) ih

theorem TaskTree.calm_freshAll {p : Pattern} {trees : List TaskTree}
    (h : ∀ tree ∈ trees, tree.fresh.Calm p) : ∀ w ∈ freshAll trees, w.Calm p := by
  intro w hw
  rw [freshAll_eq] at hw
  obtain ⟨tree, hm, rfl⟩ := List.mem_map.1 hw
  exact h tree hm

theorem TaskTree.calm_fresh {p : Pattern} {n : NodeId} {params : List Float32} {kind : TaskKind}
    {children : List TaskTree} (hk : kind.Calm p) (hc : ∀ tree ∈ children, tree.fresh.Calm p) :
    (TaskTree.node n params kind children).fresh.Calm p :=
  .node hk (calm_freshAll hc)

namespace Expansion

/-- Two expansions give the same, for which `Q` holds, or fail alike. -/
inductive Agree {α : Type} (Q : α → Prop) : EStateM.Result PatternError Random α →
    EStateM.Result PatternError Random α → Prop where
  | ok {a : α} {r r' : Random} (hq : Q a) : Agree Q (.ok a r) (.ok a r')
  | error {e : PatternError} {r r' : Random} : Agree Q (.error e r) (.error e r')

/-- What the step gives does not depend on the random numbers. -/
def Steady {α : Type} (Q : α → Prop) (m : Expansion α) : Prop := ∀ r r', Agree Q (m r) (m r')

variable {α β : Type} {Q : α → Prop} {R : β → Prop} {m : Expansion α} {f : α → Expansion β}

theorem Steady.pure {a : α} (hq : Q a) : Steady Q (pure a) := fun _ _ => .ok hq

theorem Steady.throw (e : PatternError) : Steady Q (throw e) := fun _ _ => .error

theorem Steady.bind (hm : Steady Q m) (hf : ∀ a, Q a → Steady R (f a)) : Steady R (m >>= f) := by
  intro r r'
  have h := hm r r'
  generalize hx : m r = x at h
  generalize hy : m r' = y at h
  cases h with
  | ok hq =>
    rw [bind_of_ok hx, bind_of_ok hy]
    exact hf _ hq _ _
  | error =>
    rw [bind_of_error hx, bind_of_error hy]
    exact .error

theorem Steady.map {g : α → β} (hm : Steady Q m) (hg : ∀ a, Q a → R (g a)) :
    Steady R (g <$> m) := by
  intro r r'
  have h := hm r r'
  generalize hx : m r = x at h
  generalize hy : m r' = y at h
  cases h with
  | ok hq =>
    rw [map_of_ok hx, map_of_ok hy]
    exact .ok (hg _ hq)
  | error =>
    rw [map_of_error hx, map_of_error hy]
    exact .error

theorem steady_require (x : Except PatternError α) : Steady (x = .ok ·) (require x) := by
  cases x with
  | ok a => exact .pure rfl
  | error e => exact .throw e

end Expansion

namespace Binder
open Expansion

variable {p : Pattern} {b : Binder} {child beyond : NodeExpander}

/-- Every node expands to the same calm tree, whatever the random numbers. -/
def Steadies (p : Pattern) (child : NodeExpander) : Prop :=
  ∀ n params, Steady (fun tree => ∀ t ∈ tree, t.fresh.Calm p) (child n params)

theorem steady_passed (hp : b.pattern.Tame) (ref : NodeId) (params : List Float32) :
    Steady (fun _ => True) (b.passed ref params) := by
  intro r r'
  have heq (r : Random) : b.passed ref params r = .ok _ _ := rfl
  rw [heq r, heq r', hp.evalNodes _ _ r r']
  exact .ok trivial

theorem steady_children (hc : Steadies p child) (params : List Float32) (ns : List NodeId) :
    Steady (fun trees => ∀ t ∈ trees, t.fresh.Calm p) (expandChildren child params ns) := by
  induction ns with
  | nil => exact .pure nofun
  | cons n ns ih =>
    refine (hc n params).bind fun tree ht => ih.bind fun trees hts => .pure ?_
    intro t hm
    rcases List.mem_append.1 hm with hm | hm
    · exact ht t (Option.mem_toList.1 hm)
    · exact hts t hm

theorem steady_action (hc : Steadies p child) (n : NodeId) (params : List Float32) :
    Steady (·.fresh.Calm p) (b.expandAction child n params) := by
  apply (steady_children hc params _).bind
  intro trees h
  apply Steady.pure
  exact TaskTree.calm_fresh (by trivial) h

theorem steady_body (hc : Steadies p child) (n : NodeId) (params : List Float32) :
    Steady (·.fresh.Calm p) (b.expandBody child n params) := by
  unfold expandBody
  cases b.pattern.child? n .action <|> b.pattern.child? n .actionRef with
  | none => exact .throw _
  | some body =>
    apply (hc body params).bind
    intro tree h
    cases tree with
    | none => exact .throw _
    | some tree => exact .pure (h tree rfl)

theorem steady_repeat (hc : Steadies p child) (room : Nat) (n : NodeId) (params : List Float32) :
    Steady (·.fresh.Calm p) (b.expandRepeat room child n params) := by
  refine (steady_require _).bind fun _ _ => (steady_body hc n params).bind fun body h => .pure ?_
  apply TaskTree.calm_fresh (by trivial)
  intro tree hm
  rw [List.mem_singleton.1 hm]
  exact h

theorem steady_bullet (hp : b.pattern.Tame) (fire : NodeId) (params : List Float32) :
    Steady (fun x => b.pattern.child? fire .bullet = some x.1 ∨
      b.pattern.child? fire .bullet = none ∧ ∃ ref, b.pattern.child? fire .bulletRef = some ref ∧
        b.pattern.resolve ref = .ok x.1) (b.expandBullet fire params) := by
  unfold expandBullet
  cases b.pattern.child? fire .bullet with
  | some bullet => exact .pure (.inl rfl)
  | none =>
    cases b.pattern.child? fire .bulletRef with
    | none => exact .throw _
    | some ref =>
      refine (steady_require _).bind fun bullet hr => (steady_passed hp ref params).bind fun _ _ =>
        .pure (.inr ⟨rfl, ref, rfl, hr⟩)

/-- A fire of a tame pattern is calm. -/
theorem steady_fire (hp : b.pattern.Tame) {fire : NodeId} (params : List Float32)
    (hf : b.pattern.element fire = .fire ∨
      ∃ ref, b.pattern.element ref = .fireRef ∧ b.pattern.resolve ref = .ok fire) :
    Steady (·.fresh.Calm b.pattern) (b.expandFire fire params) := by
  apply (steady_bullet hp fire params).bind
  rintro ⟨bullet, bulletParams⟩ hb
  apply Steady.pure
  apply TaskTree.calm_fresh
  · constructor
    · rw [Pattern.sourceMode_locate]
      exact hp.direction fire bullet ⟨hf, hb⟩
    · rw [Pattern.sourceMode_locate]
      exact hp.speed fire bullet ⟨hf, hb⟩
  · intro tree hm
    rw [List.mem_singleton.1 hm]
    exact TaskTree.calm_fresh trivial nofun

theorem steady_fireRef (hp : b.pattern.Tame) (room : Nat) {ref : NodeId} (params : List Float32)
    (he : b.pattern.element ref = .fireRef) :
    Steady (·.fresh.Calm b.pattern) (b.expandFireRef room ref params) := by
  apply (steady_require _).bind
  intro fire hr
  apply (steady_passed hp ref params).bind
  intro passed _
  split
  · exact .bind (.throw _ : Steady (fun _ : PUnit => True) _) fun _ _ =>
      steady_fire hp passed (.inr ⟨ref, he, hr⟩)
  · exact steady_fire hp passed (.inr ⟨ref, he, hr⟩)

theorem steady_change {kind : ChangeState → TaskKind} (hk : ∀ st, (kind st).Calm p)
    (value : Element) (n : NodeId) (params : List Float32) :
    Steady (·.fresh.Calm p) (b.expandChange kind value n params) :=
  (steady_require _).bind fun _ _ => (steady_require _).bind fun _ _ =>
    .pure (TaskTree.calm_fresh (hk _) nofun)

theorem steady_accel (n : NodeId) (params : List Float32) :
    Steady (·.fresh.Calm p) (b.expandAccel n params) :=
  (steady_require _).bind fun _ _ => .pure (TaskTree.calm_fresh trivial nofun)

theorem steadies_over (hp : b.pattern.Tame) (room : Nat) (hc : Steadies b.pattern child)
    (hb : Steadies b.pattern beyond) : Steadies b.pattern (b.expandOver room child beyond) := by
  intro n params
  have some {m : Expansion TaskTree} (h : Steady (·.fresh.Calm b.pattern) m) :
      Steady (fun tree => ∀ t ∈ tree, t.fresh.Calm b.pattern) (Option.some <$> m) := by
    apply h.map
    intro tree ht t hm
    cases hm
    exact ht
  have leaf {kind : TaskKind} (hk : kind.Calm b.pattern) :
      Steady (fun tree : Option TaskTree => ∀ t ∈ tree, t.fresh.Calm b.pattern)
        (pure (Option.some (.node n params kind []))) := by
    apply Steady.pure
    intro t hm
    cases hm
    exact TaskTree.calm_fresh hk nofun
  unfold expandOver
  cases he : b.pattern.element n with
  | action => exact some (steady_action hc n params)
  | actionRef =>
    exact (steady_require _).bind fun target _ => (steady_passed hp n params).bind fun passed _ =>
      some (steady_action hb target passed)
  | fire => exact some (steady_fire hp params (.inl he))
  | fireRef => exact some (steady_fireRef hp room params he)
  | «repeat» => exact some (steady_repeat hc room n params)
  | wait => exact leaf trivial
  | vanish => exact leaf trivial
  | changeDirection => exact some (steady_change (fun _ => by trivial) .direction n params)
  | changeSpeed => exact some (steady_change (fun _ => by trivial) .speed n params)
  | accel => exact some (steady_accel n params)
  | _ => exact .pure nofun

theorem steadies_refused : Steadies p expandRefused := fun _ _ => .throw _

theorem steadies_node (hp : p.Tame) (hb : b.pattern = p) (room : Nat) :
    Steadies p (b.expandNode room) := by
  subst hb
  induction room using Nat.twoStepInduction with
  | zero => exact steadies_refused
  | one => exact steadies_over hp 0 steadies_refused steadies_refused
  | more room ih ih' => exact steadies_over hp (room + 1) ih' ih

end Binder
end Barrage

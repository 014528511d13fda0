import Barrage.Proofs.Settled

namespace Barrage

/-- What can stand in the place of a child of an action: for an action, its own children, and for a
`repeat`, copies of its body. -/
inductive Move where
  | dissolve
  | unroll
deriving DecidableEq, Repr

namespace Pattern

/-- The node is a `repeat` that always runs its body, which is settled, the same number of times. A
`repeat` that never runs it is in a pattern without fault. -/
structure Rolls (p : Pattern) (n : NodeId) (times : UInt32) (body : NodeId) : Prop where
  element : p.element n = .repeat
  count : ∃ t, p.child? n .times = some t ∧
    ∀ scope r, ∃ v, p.evalNode t scope r = (v, r) ∧ Binary32.toCount v = times
  limit : times ≤ maxRepeat
  inline : p.child? n .action = some body
  settled : p.Settled body
  empty : times = 0 → p.validate = .ok ()

/-- The second children stand for the first ones: each for one that corresponds to it, or, in an
action, some for one that the move puts them in the place of. -/
inductive Aligned (move : Move) (p q : Pattern) (ρ : NodeId → NodeId → Prop) :
    (inAction : Bool) → List NodeId → List NodeId → Prop where
  | nil {inAction : Bool} : Aligned move p q ρ inAction [] []
  | keep {inAction : Bool} {c d : NodeId} {cs ds : List NodeId} (hc : ρ c d)
      (hs : Aligned move p q ρ inAction cs ds) : Aligned move p q ρ inAction (c :: cs) (d :: ds)
  | dissolve {c : NodeId} {cs ds es : List NodeId} (hm : move = .dissolve)
      (he : p.element c = .action) (hc : Aligned move p q ρ true (p.children c) ds)
      (hs : Aligned move p q ρ true cs es) : Aligned move p q ρ true (c :: cs) (ds ++ es)
  | unroll {c body : NodeId} {times : UInt32} {cs ds es : List NodeId} (hm : move = .unroll)
      (hr : p.Rolls c times body) (hl : ds.length = times.toNat) (hd : ∀ d ∈ ds, ρ body d)
      (hs : Aligned move p q ρ true cs es) : Aligned move p q ρ true (c :: cs) (ds ++ es)

/-- The second pattern is the first one after any number of such moves. Corresponding nodes are
equal but for their children, and what a label names corresponds to what it named before. -/
structure Recasts (move : Move) (p q : Pattern) (ρ : NodeId → NodeId → Prop) : Prop where
  closed : p.Closed
  outer : p.element root = .bulletml
  root : ρ root root
  element : ∀ a b, ρ a b → q.element b = p.element a
  label : ∀ a b, ρ a b → (q.node b).label = (p.node a).label
  mode : ∀ a b, ρ a b → q.mode b = p.mode a
  expr : ∀ a b, ρ a b → (q.node b).expr = (p.node a).expr
  children : ∀ a b, ρ a b →
    Aligned move p q ρ (p.element a == .action) (p.children a) (q.children b)
  lookup : ∀ kind label, Option.Rel ρ (p.lookup? kind label) (q.lookup? kind label)

variable {move : Move} {p q : Pattern} {ρ : NodeId → NodeId → Prop} {a b n : NodeId}
  {cs ds : List NodeId} {times : UInt32} {body : NodeId} {inAction : Bool}

section Rolls

theorem Rolls.settled_self (h : p.Rolls n times body) : p.Settled n := by
  intro m hm
  rcases hm.cases_head with rfl | ⟨c, hc, hrest⟩
  · unfold Quiet
    rw [h.element]
    trivial
  · cases hc with
    | child he =>
      rw [h.element] at he
      cases he
    | target he =>
      rw [h.element] at he
      rcases he with he | he <;> cases he
    | body _ hc =>
      rw [h.inline] at hc
      cases hc
      exact h.settled m hrest

theorem Rolls.body_action (h : p.Rolls n times body) : p.element body = .action :=
  (child?_mem h.inline).2

end Rolls

section Aligned

theorem aligned_of_forall₂ (h : List.Forall₂ ρ cs ds) :
    Aligned move p q ρ inAction cs ds := by
  induction h with
  | nil => exact .nil
  | cons hc _ ih => exact .keep hc ih

theorem Aligned.forall₂ (h : Aligned move p q ρ inAction cs ds) (ha : inAction = false) :
    List.Forall₂ ρ cs ds := by
  induction h with
  | nil => exact .nil
  | keep hc _ ih => exact .cons hc (ih ha)
  | dissolve => cases ha
  | unroll => cases ha

theorem rel_find? {f g : NodeId → Bool} (h : List.Forall₂ ρ cs ds)
    (hf : ∀ a b, ρ a b → f a = g b) : Option.Rel ρ (cs.find? f) (ds.find? g) := by
  induction h with
  | nil => exact .none
  | @cons c d cs ds hc _ ih =>
    rw [List.find?_cons, List.find?_cons, hf c d hc]
    cases g d with
    | true => exact .some hc
    | false => exact ih

theorem rel_filter {f g : NodeId → Bool} (h : List.Forall₂ ρ cs ds)
    (hf : ∀ a b, ρ a b → f a = g b) : List.Forall₂ ρ (cs.filter f) (ds.filter g) :=
  List.rel_filter (fun a b hc => Bool.eq_iff_iff.1 (hf a b hc)) h

end Aligned

namespace Recasts

variable (h : Recasts move p q ρ)

include h

theorem children_of_ne (hr : ρ a b) (hne : p.element a ≠ .action) :
    List.Forall₂ ρ (p.children a) (q.children b) :=
  (h.children a b hr).forall₂ (beq_eq_false_iff_ne.2 hne)

theorem child? (hr : ρ a b) (hne : p.element a ≠ .action) (e : Element) :
    Option.Rel ρ (p.child? a e) (q.child? b e) :=
  rel_find? (h.children_of_ne hr hne) fun c d hc => by rw [h.element c d hc]

theorem childrenNamed (hr : ρ a b) (hne : p.element a ≠ .action) (e : Element) :
    List.Forall₂ ρ (p.childrenNamed a e) (q.childrenNamed b e) :=
  rel_filter (h.children_of_ne hr hne) fun c d hc => by rw [h.element c d hc]

theorem topActions : List.Forall₂ ρ p.topActions q.topActions := by
  have hne : p.element Pattern.root ≠ .action := by
    rw [h.outer]
    exact nofun
  apply rel_filter (h.childrenNamed h.root hne .action)
  intro c d hc
  rw [isTop, isTop, h.label c d hc]

theorem shotActions (hr : ρ a b) (hne : p.element a ≠ .action) :
    List.Forall₂ ρ (Turn.shotActions p a) (Turn.shotActions q b) :=
  rel_filter (h.children_of_ne hr hne) fun c d hc => by rw [h.element c d hc]

theorem evalNode (hr : ρ a b) : q.evalNode b = p.evalNode a := by
  funext scope r
  rw [Pattern.evalNode, Pattern.evalNode, h.expr a b hr]

theorem evalNodes (hs : List.Forall₂ ρ cs ds) (scope : Scope) (r : Random) :
    q.evalNodes scope ds r = p.evalNodes scope cs r := by
  induction hs generalizing r with
  | nil => rfl
  | cons hc _ ih =>
    rw [Pattern.evalNodes, Pattern.evalNodes, h.evalNode hc]
    simp only [ih]

theorem resolve (hr : ρ a b) (ht : (p.element a).refTarget? ≠ none) :
    (∃ c d, p.resolve a = .ok c ∧ q.resolve b = .ok d ∧ ρ c d) ∨
      ∃ e e', p.resolve a = .error e ∧ q.resolve b = .error e' := by
  obtain ⟨target, ht⟩ := Option.ne_none_iff_exists'.1 ht
  unfold Pattern.resolve
  rw [h.element a b hr, h.label a b hr, ht]
  simp only
  have hfound := h.lookup target ((p.node a).label.getD "")
  generalize p.lookup? target _ = x at hfound ⊢
  generalize q.lookup? target _ = y at hfound ⊢
  cases hfound with
  | some hc => exact .inl ⟨_, _, rfl, rfl, hc⟩
  | none => exact .inr ⟨_, _, rfl, rfl⟩

theorem required (hr : ρ a b) (hne : p.element a ≠ .action) (e : Element) :
    (∃ c d, p.required a e = .ok c ∧ q.required b e = .ok d ∧ ρ c d) ∨
      ∃ x y, p.required a e = .error x ∧ q.required b e = .error y := by
  unfold Pattern.required
  have hfound := h.child? hr hne e
  generalize p.child? a e = x at hfound ⊢
  generalize q.child? b e = y at hfound ⊢
  cases hfound with
  | some hc => exact .inl ⟨_, _, rfl, rfl, hc⟩
  | none => exact .inr ⟨_, _, rfl, rfl⟩

end Recasts

end Pattern
end Barrage

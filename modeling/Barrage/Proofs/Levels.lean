import Barrage.Proofs.Nesting
import Barrage.Proofs.Scoping

namespace Barrage

namespace Expansion

variable {α β : Type} {x : Expansion α} {r : Random} {e : PatternError}

/-- A step that ended in a fault. -/
def Fails (result : EStateM.Result PatternError Random α) (e : PatternError) : Prop :=
  ∃ r, result = .error e r

theorem Fails.of_bind {f : α → Expansion β} (h : Fails ((x >>= f) r) e) :
    Fails (x r) e ∨ ∃ a r₁, x r = .ok a r₁ ∧ Fails (f a r₁) e := by
  obtain ⟨r', h⟩ := h
  cases hx : x r with
  | error e' r₁ =>
    rw [bind_of_error hx] at h
    cases h
    exact .inl ⟨_, rfl⟩
  | ok a r₁ =>
    rw [bind_of_ok hx] at h
    exact .inr ⟨a, r₁, rfl, r', h⟩

theorem Fails.of_map {f : α → β} (h : Fails ((f <$> x) r) e) : Fails (x r) e := by
  obtain ⟨r', h⟩ := h
  cases hx : x r with
  | error e' r₁ =>
    rw [map_of_error hx] at h
    cases h
    exact ⟨_, rfl⟩
  | ok a r₁ =>
    rw [map_of_ok hx] at h
    cases h

/-- What is required fails with the fault for which it is not there. -/
theorem Fails.of_require {found : Except PatternError α} {f : α → Expansion β}
    (hne : ∀ e', found = .error e' → e' ≠ e) (h : Fails ((require found >>= f) r) e) :
    ∃ a, found = .ok a ∧ Fails (f a r) e := by
  cases hf : found with
  | error e' =>
    rw [hf] at h
    obtain ⟨_, h⟩ := h
    cases h
    exact absurd rfl (hne _ hf)
  | ok a =>
    rw [hf] at h
    exact ⟨a, rfl, h⟩

end Expansion

namespace Pattern

variable {p : Pattern} {id : NodeId} {k : Element} {e : PatternError}

theorem resolve_ne_limit (h : p.resolve id = .error e) : e ≠ .recursionLimit maxNestDepth := by
  unfold resolve at h
  split at h
  · cases h
  · simp only at h
    split at h <;> cases h
    exact nofun

theorem required_ne_limit (h : p.required id k = .error e) :
    e ≠ .recursionLimit maxNestDepth := by
  unfold required at h
  split at h <;> cases h
  exact nofun

end Pattern

namespace Binder
open Expansion ScopedTree

/-- The action whose children are bound for a node, which is the node or what it names, and the
number of references on the way to it. -/
inductive Opens (b : Binder) (m : NodeId) (calls : CallChain) (r : Random) :
    Nat → NodeId → CallChain → Random → Prop where
  | own (he : b.pattern.element m = .action) : Opens b m calls r 0 m calls r
  | named {target : NodeId} {values : List Float32} {r' : Random}
      (he : b.pattern.element m = .actionRef) (ht : b.pattern.resolve m = .ok target)
      (hv : b.passing calls m r = (values, r')) :
      Opens b m calls r 1 target (.through calls m values) r'

/-- When `n` is bound, its walk comes to the node `m`, with these parameters in force and these random
numbers left. The level counts the steps to a child and the references on the way. What stands
before the node has been bound. -/
inductive Visits (b : Binder) (n : NodeId) (params : List Float32) (r : Random) :
    Nat → NodeId → CallChain → Random → Prop where
  | start : Visits b n params r 0 n (.initial params) r
  | child {level hops : Nat} {m target c : NodeId} {calls inner : CallChain} {r₁ r₂ r₃ : Random}
      {before after : List NodeId} {trees : List ScopedTree}
      (h : Visits b n params r level m calls r₁) (ho : b.Opens m calls r₁ hops target inner r₂)
      (hc : b.pattern.children target = before ++ c :: after)
      (hd : b.DenotesAll (maxNestDepth - (level + hops)) inner before r₂ trees r₃) :
      Visits b n params r (level + hops + 1) c inner r₃
  | body {level : Nat} {m times body : NodeId} {calls : CallChain} {r₁ : Random}
      (h : Visits b n params r level m calls r₁) (he : b.pattern.element m = .repeat)
      (ht : b.pattern.child? m .times = some times)
      (hb : (b.pattern.child? m .action <|> b.pattern.child? m .actionRef) = some body) :
      Visits b n params r (level + 1) body calls r₁

/-- The walk comes to an action or a fire, by itself or by a reference, which is one level more. -/
inductive Meets (b : Binder) (n : NodeId) (params : List Float32) (r : Random) :
    Nat → Element → NodeId → Prop where
  | action {level hops : Nat} {m target : NodeId} {calls inner : CallChain} {r₁ r₂ : Random}
      (h : b.Visits n params r level m calls r₁) (ho : b.Opens m calls r₁ hops target inner r₂) :
      Meets b n params r (level + hops) .action target
  | fire {level : Nat} {m : NodeId} {calls : CallChain} {r₁ : Random}
      (h : b.Visits n params r level m calls r₁) (he : b.pattern.element m = .fire) :
      Meets b n params r level .fire m
  | fireRef {level : Nat} {m target : NodeId} {calls : CallChain} {r₁ : Random}
      (h : b.Visits n params r level m calls r₁) (he : b.pattern.element m = .fireRef)
      (ht : b.pattern.resolve m = .ok target) : Meets b n params r (level + 1) .fire target

/-- The node is too deep, or it is a reference to what would be: to a fire, or to an action that is
not empty. -/
def Crosses (p : Pattern) (level : Nat) (m : NodeId) : Prop :=
  maxNestDepth < level ∨ level = maxNestDepth ∧ ∃ target, p.resolve m = .ok target ∧
    (p.element m = .fireRef ∨ p.element m = .actionRef ∧ p.children target ≠ [])

variable {b : Binder} {calls inner : CallChain} {n m c target : NodeId}
  {before after ns : List NodeId} {r r₁ r₂ r' : Random} {params : List Float32}
  {level hops room : Nat} {child : NodeExpander} {e : PatternError} {trees : List TaskTree}

section Children

theorem expandChildren_fails (hx : expandChildren child params before r = .ok trees r₁)
    (hc : Fails (child c params r₁) e) :
    Fails (expandChildren child params (before ++ c :: after) r) e := by
  induction before generalizing r trees with
  | nil =>
    cases hx
    obtain ⟨r₂, hc⟩ := hc
    exact ⟨r₂, bind_of_error hc⟩
  | cons n before ih =>
    obtain ⟨x, r₂, hn, hx⟩ := ok_of_bind hx
    obtain ⟨rest, r₃, hrest, hx⟩ := ok_of_bind hx
    cases hx
    obtain ⟨r₄, hfail⟩ := ih hrest
    refine ⟨r₄, ?_⟩
    rw [List.cons_append, expandChildren, bind_of_ok hn]
    exact bind_of_error hfail

/-- Where some nodes cannot be bound, there is a first. -/
theorem first_of_fails (h : Fails (expandChildren child params ns r) e) :
    ∃ before c after trees r₁, ns = before ++ c :: after ∧
      expandChildren child params before r = .ok trees r₁ ∧ Fails (child c params r₁) e := by
  induction ns generalizing r with
  | nil =>
    obtain ⟨_, h⟩ := h
    cases h
  | cons n ns ih =>
    obtain ⟨r', h⟩ := h
    cases hn : child n params r with
    | error e' r₁ =>
      rw [expandChildren, bind_of_error hn] at h
      cases h
      exact ⟨[], n, ns, [], r, rfl, rfl, _, hn⟩
    | ok x r₁ =>
      rw [expandChildren, bind_of_ok hn] at h
      cases hs : expandChildren child params ns r₁ with
      | ok trees r₂ =>
        rw [bind_of_ok hs] at h
        cases h
      | error e' r₂ =>
        rw [bind_of_error hs] at h
        cases h
        obtain ⟨before, c, after, trees, r₃, rfl, hbefore, hc⟩ := ih ⟨_, hs⟩
        refine ⟨n :: before, c, after, x.toList ++ trees, r₃, rfl, ?_, hc⟩
        rw [expandChildren, bind_of_ok hn, bind_of_ok hbefore]
        rfl

end Children

section Failing

theorem Opens.fails (ho : b.Opens m calls r₁ hops target inner r₂)
    (h : Fails (expandChildren (b.expandNode (room - hops)) inner.params
      (b.pattern.children target) r₂) e) : Fails (b.expandNode (room + 1) m calls.params r₁) e := by
  obtain ⟨r', h⟩ := h
  refine ⟨r', ?_⟩
  rw [expandNode_succ, expandOver]
  cases ho with
  | own he =>
    rw [he]
    exact map_of_error (bind_of_error h)
  | named he ht hv =>
    rw [he]
    simp only
    rw [bind_of_ok (require_of_ok r₁ ht), bind_of_ok (passed_eq_ok.2 hv)]
    exact map_of_error (bind_of_error h)

theorem body_fails {times body : NodeId} (he : b.pattern.element m = .repeat)
    (ht : b.pattern.child? m .times = some times)
    (hb : (b.pattern.child? m .action <|> b.pattern.child? m .actionRef) = some body)
    (h : Fails (b.expandNode room body calls.params r₁) e) :
    Fails (b.expandNode (room + 1) m calls.params r₁) e := by
  obtain ⟨r', h⟩ := h
  refine ⟨r', ?_⟩
  have hbody : b.expandBody (b.expandNode room) m calls.params r₁ = .error e r' := by
    unfold expandBody
    rw [hb]
    exact bind_of_error h
  rw [expandNode_succ, expandOver, he]
  apply map_of_error
  rw [expandRepeat, bind_of_ok (require_of_ok r₁ (Pattern.required_eq_ok.2 ht))]
  exact bind_of_error hbody

/-- There is no level left at this node. -/
theorem fails_beyond (hl : maxNestDepth < level) :
    Fails (b.expandNode (maxNestDepth + 1 - level) m params r) (.recursionLimit maxNestDepth) := by
  rw [Nat.sub_eq_zero_of_le hl]
  exact ⟨r, rfl⟩

theorem eq_of_fails_beyond (hl : maxNestDepth < level)
    (h : Fails (b.expandNode (maxNestDepth + 1 - level) m params r) e) :
    e = .recursionLimit maxNestDepth := by
  rw [Nat.sub_eq_zero_of_le hl] at h
  obtain ⟨r', h⟩ := h
  cases h
  rfl

/-- What fails at a node that the walk comes to fails as a whole. -/
theorem Visits.fails (hv : b.Visits n params r level m calls r₁)
    (h : Fails (b.expandNode (maxNestDepth + 1 - level) m calls.params r₁) e) :
    Fails (b.expandNode (maxNestDepth + 1) n params r) e := by
  induction hv with
  | start => exact h
  | @child level hops m target c calls inner r₁ r₂ r₃ before after trees _ ho hc hd ih =>
    apply ih
    by_cases hl : level ≤ maxNestDepth
    · have hroom : maxNestDepth + 1 - level = maxNestDepth - level + 1 := Nat.succ_sub hl
      have hbelow : maxNestDepth + 1 - (level + hops + 1) = maxNestDepth - level - hops := by omega
      have hroom' : maxNestDepth - (level + hops) = maxNestDepth - level - hops := Nat.sub_add_eq ..
      rw [hroom]
      rw [hbelow] at h
      rw [hroom'] at hd
      have hbefore := ((b.finds_all_levels _).all inner).2 ⟨_, hd, rfl⟩
      exact ho.fails (hc ▸ expandChildren_fails hbefore h)
    · have hdeep := Nat.lt_of_not_le hl
      rw [eq_of_fails_beyond (by omega) h]
      exact fails_beyond hdeep
  | @body level m times body calls r₁ _ he ht hb ih =>
    apply ih
    by_cases hl : level ≤ maxNestDepth
    · have hroom : maxNestDepth + 1 - level = maxNestDepth - level + 1 := Nat.succ_sub hl
      rw [hroom]
      rw [Nat.add_sub_add_right] at h
      exact body_fails he ht hb h
    · have hdeep := Nat.lt_of_not_le hl
      rw [eq_of_fails_beyond (by omega) h]
      exact fails_beyond hdeep

theorem fails_of_crosses (hc : Crosses b.pattern level m) :
    Fails (b.expandNode (maxNestDepth + 1 - level) m calls.params r)
      (.recursionLimit maxNestDepth) := by
  rcases hc with hl | ⟨rfl, target, ht, he | ⟨he, hn⟩⟩
  · exact fails_beyond hl
  · rw [Nat.add_sub_cancel_left]
    refine ⟨(b.passing calls m r).2, ?_⟩
    rw [expandNode_succ, expandOver, he]
    apply map_of_error
    rw [expandFireRef, bind_of_ok (require_of_ok r ht), bind_of_ok (passed_eq_ok.2 rfl)]
    rfl
  · rw [Nat.add_sub_cancel_left]
    obtain ⟨c, after, hc⟩ := List.exists_cons_of_ne_nil hn
    have ho : b.Opens m calls r 1 target _ _ := .named he ht rfl
    refine ho.fails ?_
    rw [hc]
    exact ⟨_, rfl⟩

end Failing

section Limit

theorem fire_ne_limit : ¬Fails (b.expandFire n params r) (.recursionLimit maxNestDepth) := by
  intro h
  rcases h.of_bind with h | ⟨_, _, _, _, h⟩
  · unfold expandBullet at h
    cases hc : b.pattern.child? n .bullet with
    | some bullet =>
      rw [hc] at h
      obtain ⟨_, h⟩ := h
      cases h
    | none =>
      cases hr : b.pattern.child? n .bulletRef with
      | none =>
        rw [hc, hr] at h
        obtain ⟨_, h⟩ := h
        cases h
      | some ref =>
        rw [hc, hr] at h
        obtain ⟨_, _, _, h⟩ := h.of_require fun _ => Pattern.resolve_ne_limit
        cases h
  · cases h

theorem change_ne_limit {kind : ChangeState → TaskKind} {k : Element} :
    ¬Fails (b.expandChange kind k n params r) (.recursionLimit maxNestDepth) := by
  intro h
  obtain ⟨_, _, h⟩ := h.of_require fun _ => Pattern.required_ne_limit
  obtain ⟨_, _, _, h⟩ := h.of_require fun _ => Pattern.required_ne_limit
  cases h

/-- Where the children of an action cannot be bound for a lack of levels, it is for one of them. -/
theorem Visits.opened (hv : b.Visits n params r level m calls r₁)
    (ho : b.Opens m calls r₁ hops target inner r₂)
    (hroom : room = maxNestDepth - (level + hops))
    (h : Fails (expandChildren (b.expandNode room) inner.params (b.pattern.children target) r₂) e) :
    ∃ c r₃, b.Visits n params r (level + hops + 1) c inner r₃ ∧
      Fails (b.expandNode room c inner.params r₃) e := by
  obtain ⟨before, c, after, trees, r₃, hc, hbefore, hfail⟩ := first_of_fails h
  obtain ⟨ys, hys, _⟩ := ((b.finds_all_levels _).all inner).1 hbefore
  exact ⟨c, r₃, .child hv ho hc (hroom ▸ hys), hfail⟩

/-- Where a lack of levels is met, the walk has crossed the limit. -/
theorem Visits.crosses (hv : b.Visits n params r level m calls r₁)
    (hroom : room = maxNestDepth + 1 - level)
    (h : Fails (b.expandNode room m calls.params r₁) (.recursionLimit maxNestDepth)) :
    ∃ level m calls r₁, b.Visits n params r level m calls r₁ ∧ Crosses b.pattern level m := by
  induction room using Nat.strongRecOn generalizing level m calls r₁ with
  | ind room ih =>
    cases room with
    | zero => exact ⟨level, m, calls, r₁, hv, .inl (by omega)⟩
    | succ room =>
      rw [expandNode_succ, expandOver] at h
      cases he : b.pattern.element m <;> rw [he] at h
      case action =>
        rcases h.of_map.of_bind with h | ⟨_, _, _, _, h⟩
        · obtain ⟨c, r₃, hvisit, hfail⟩ := hv.opened (.own he) (by omega) h
          exact ih room (by omega) hvisit (by omega) hfail
        · cases h
      case actionRef =>
        obtain ⟨target, ht, h⟩ := h.of_require fun _ => Pattern.resolve_ne_limit
        rcases h.of_bind with ⟨_, h⟩ | ⟨values, r₂, hvalues, h⟩
        · cases h
        rcases h.of_map.of_bind with h | ⟨_, _, _, _, h⟩
        · have ho : b.Opens m calls r₁ 1 target _ _ := .named he ht (passed_eq_ok.1 hvalues)
          obtain ⟨c, r₃, hvisit, hfail⟩ := hv.opened ho (by omega) h
          exact ih (room - 1) (by omega) hvisit (by omega) hfail
        · cases h
      case fireRef =>
        obtain ⟨target, ht, h⟩ := h.of_map.of_require fun _ => Pattern.resolve_ne_limit
        rcases h.of_bind with ⟨_, h⟩ | ⟨values, r₂, hvalues, h⟩
        · cases h
        cases room with
        | zero => exact ⟨level, m, calls, r₁, hv, .inr ⟨by omega, target, ht, .inl he⟩⟩
        | succ room => exact absurd h fire_ne_limit
      case «repeat» =>
        obtain ⟨times, ht, h⟩ := h.of_map.of_require fun _ => Pattern.required_ne_limit
        rcases h.of_bind with h | ⟨_, _, _, _, h⟩
        · unfold expandBody at h
          cases hb : b.pattern.child? m .action <|> b.pattern.child? m .actionRef with
          | none =>
            rw [hb] at h
            obtain ⟨_, h⟩ := h
            cases h
          | some body =>
            rw [hb] at h
            rcases h.of_bind with h | ⟨x, _, _, _, h⟩
            · have hvisit := hv.body he (Pattern.required_eq_ok.1 ht) hb
              exact ih room (by omega) hvisit (by omega) h
            · cases x <;> cases h
        · cases h
      case fire => exact absurd h.of_map fire_ne_limit
      case changeDirection => exact absurd h.of_map change_ne_limit
      case changeSpeed => exact absurd h.of_map change_ne_limit
      case accel =>
        obtain ⟨_, _, _, h⟩ := h.of_map.of_require fun _ => Pattern.required_ne_limit
        cases h
      all_goals
        obtain ⟨_, h⟩ := h
        cases h

end Limit

section Bound

/-- In a node that can be bound, the walk does not cross the limit. -/
theorem Visits.within {x : Option TaskTree}
    (hx : b.expandNode (maxNestDepth + 1) n params r = .ok x r')
    (hv : b.Visits n params r level m calls r₁) : ¬Crosses b.pattern level m := by
  intro hc
  obtain ⟨r₂, h⟩ := hv.fails (fails_of_crosses hc)
  rw [hx] at h
  cases h

theorem Meets.level_le {x : Option TaskTree} {kind : Element}
    (hx : b.expandNode (maxNestDepth + 1) n params r = .ok x r')
    (hm : b.Meets n params r level kind target) :
    level ≤ maxNestDepth ∨
      level = maxNestDepth + 1 ∧ kind = .action ∧ b.pattern.children target = [] := by
  cases hm with
  | @action level hops m _ calls inner r₁ r₂ h ho =>
    have hw := h.within hx
    rw [Crosses, not_or] at hw
    cases ho with
    | own _ => exact .inl (Nat.le_of_not_lt hw.1)
    | named he ht hv =>
      by_cases hl : level = maxNestDepth
      · refine .inr ⟨by omega, rfl, ?_⟩
        exact Decidable.byContradiction fun hn => hw.2 ⟨hl, target, ht, .inr ⟨he, hn⟩⟩
      · exact .inl (by omega)
  | fire h _ =>
    have hw := h.within hx
    rw [Crosses, not_or] at hw
    exact .inl (Nat.le_of_not_lt hw.1)
  | @fireRef level m _ calls r₁ h he ht =>
    have hw := h.within hx
    rw [Crosses, not_or] at hw
    have hl : level ≠ maxNestDepth := fun hl => hw.2 ⟨hl, target, ht, .inl he⟩
    exact .inl (by omega)

end Bound

/-- For `n` to be bound, no level may be used up beyond the last. An action that a reference names is
let pass there if it is empty. Binding fails for a lack of levels exactly if the walk comes to a node
that is too deep, or to a reference to a fire or to an action with children that would be. -/
theorem levels_are_limited {owner : Option TaskId} {s : BindState} (hs : s.tasks.Sound) :
    (∀ x s', b.bindNode (maxNestDepth + 1) n owner params s = .ok x s' →
      ∀ level kind target, b.Meets n params s.random level kind target →
        level ≤ maxNestDepth ∨
          level = maxNestDepth + 1 ∧ kind = .action ∧ b.pattern.children target = []) ∧
    ((∃ s', b.bindNode (maxNestDepth + 1) n owner params s =
        .error (.recursionLimit maxNestDepth) s') ↔
      ∃ level m calls r, b.Visits n params s.random level m calls r ∧
        Crosses b.pattern level m) := by
  have hb := b.follows_node (maxNestDepth + 1) n owner params s hs
  constructor
  · intro x s' hok level kind target hm
    rw [hok] at hb
    cases hx : b.expandNode (maxNestDepth + 1) n params s.random with
    | ok tree r => exact hm.level_le hx
    | error e r =>
      rw [hx] at hb
      cases hb
  · constructor
    · rintro ⟨s', herror⟩
      rw [herror] at hb
      cases hx : b.expandNode (maxNestDepth + 1) n params s.random with
      | ok tree r =>
        rw [hx] at hb
        cases hb
      | error e r =>
        rw [hx] at hb
        cases hb
        exact Visits.crosses .start rfl ⟨_, hx⟩
    · rintro ⟨level, m, calls, r₁, hv, hc⟩
      obtain ⟨r, hx⟩ := hv.fails (fails_of_crosses hc)
      rw [hx] at hb
      generalize hy : b.bindNode (maxNestDepth + 1) n owner params s = y at hb
      cases hb
      exact ⟨_, rfl⟩

end Binder

/-- A chain of actions, each with the next one as its only child. -/
def Pattern.chain : Nat → Pattern
  | 0 => (((ofName "chain").addNode root .action).2.setLabel ⟨1⟩ "top").1
  | n + 1 => ((chain n).addNode ⟨n + 1⟩ .action).2

/-- A chain of 128 actions, at the end of which a reference names an empty action. -/
@[irreducible] def Pattern.steep : Pattern :=
  ((((((chain 127).addNode ⟨128⟩ .actionRef).2.setLabel ⟨129⟩ "empty").1.addNode
    root .action).2.setLabel ⟨130⟩ "empty").1)

set_option maxRecDepth 4000 in
theorem Pattern.steep_action : ∀ i < maxNestDepth, steep.element ⟨i + 1⟩ = .action ∧
    steep.children ⟨i + 1⟩ = [⟨i + 2⟩] := by
  decide +kernel

set_option maxRecDepth 4000 in
theorem Pattern.steep_reference : steep.element ⟨129⟩ = .actionRef ∧
    steep.lookup? .action "empty" = some ⟨130⟩ ∧ (steep.node ⟨129⟩).label = some "empty" ∧
    steep.childrenNamed ⟨129⟩ .param = [] ∧ steep.children ⟨130⟩ = [] := by
  decide +kernel

theorem Pattern.resolve_steep : steep.resolve ⟨129⟩ = .ok ⟨130⟩ := by
  obtain ⟨helement, hlookup, hlabel, _⟩ := steep_reference
  rw [resolve, helement, hlabel]
  simp only [Element.refTarget?, Option.getD_some, hlookup]

theorem Pattern.built_chain (n : Nat) : (chain n).Built ∧ (chain n).size = n + 2 := by
  induction n with
  | zero =>
    exact ⟨.setLabel _ (.addNode _ _ (.ofName "chain") (by decide)) (by decide), by decide⟩
  | succ n ih =>
    obtain ⟨hbuilt, hsize⟩ := ih
    rw [chain, size_addNode, hsize]
    exact ⟨.addNode _ _ hbuilt (by rw [hsize]; exact Nat.le_succ _), rfl⟩

theorem Pattern.built_steep : steep.Built := by
  obtain ⟨hchain, hlength⟩ := built_chain 127
  have href : ((chain 127).addNode ⟨128⟩ .actionRef).2.Built :=
    .addNode _ _ hchain (by rw [hlength]; decide)
  have hsize : ((chain 127).addNode ⟨128⟩ .actionRef).2.size = 130 := by
    rw [size_addNode, hlength]
  have hhas : ((chain 127).addNode ⟨128⟩ .actionRef).2.Has ⟨129⟩ := by
    rw [Has, hsize]
    decide
  have hlabelled := (retains_setLabel hhas "empty").size
  unfold steep
  refine .setLabel _ (.addNode _ _ (.setLabel _ href hhas) (Nat.zero_le _)) ?_
  rw [Has, size_addNode, hlabelled, hsize]
  decide

namespace Binder

/-- Binds the chain. -/
def climber : Binder := ⟨.steep, 0, .atRest ⟨0, 0⟩⟩

theorem climber_visits {r : Random} {level : Nat} (hl : level ≤ maxNestDepth) :
    climber.Visits ⟨1⟩ [] r level ⟨level + 1⟩ (.initial []) r := by
  induction level with
  | zero => exact .start
  | succ level ih =>
    obtain ⟨helement, hchildren⟩ := Pattern.steep_action level hl
    have hnext : Pattern.steep.children ⟨level + 1⟩ = [] ++ [⟨level + 2⟩] := hchildren
    exact .child (ih (Nat.le_of_lt hl)) (.own helement) hnext .nil

theorem climber_descends {r : Random} {room : Nat} {i : Nat} {tree : ScopedTree}
    (hi : i < maxNestDepth) (h : climber.Denotes room (.initial []) ⟨i + 2⟩ r (some tree) r) :
    ∃ tree, climber.Denotes (room + 1) (.initial []) ⟨i + 1⟩ r (some tree) r := by
  obtain ⟨helement, hchildren⟩ := Pattern.steep_action i hi
  have hbelow : climber.DenotesAll room (.initial []) (climber.pattern.children ⟨i + 1⟩) r
      [tree] r := by
    rw [climber, hchildren]
    exact .cons h .nil
  exact ⟨_, .action helement hbelow⟩

/-- Each action of the chain denotes what is below it, and the last one the empty action. -/
theorem climber_denotes {r : Random} {room : Nat} (hl : room < maxNestDepth) :
    ∃ tree, climber.Denotes (room + 2) (.initial []) ⟨maxNestDepth - room⟩ r (some tree) r := by
  induction room with
  | zero =>
    obtain ⟨hreference, _, _, hparams, hempty⟩ := Pattern.steep_reference
    have hv : climber.passing (.initial []) ⟨129⟩ r = ([], r) := by
      rw [passing, climber, hparams]
      rfl
    have hnone : climber.DenotesAll 0 (.through (.initial []) ⟨129⟩ [])
        (climber.pattern.children ⟨130⟩) r [] r := by
      rw [climber, hempty]
      exact .nil
    exact climber_descends (by decide) (.actionRef hreference Pattern.resolve_steep hv hnone)
  | succ room ih =>
    obtain ⟨tree, htree⟩ := ih (Nat.lt_of_succ_lt hl)
    have hnext : maxNestDepth - room = maxNestDepth - (room + 2) + 2 := by omega
    have hthis : maxNestDepth - (room + 1) = maxNestDepth - (room + 2) + 1 := by omega
    rw [hthis]
    exact climber_descends (by omega) (hnext ▸ htree)

theorem climber_binds : ∃ id s',
    climber.bindNode (maxNestDepth + 1) ⟨1⟩ none [] ⟨.empty, .ofSeed 0⟩ = .ok (some id) s' := by
  have hl : maxNestDepth - 1 < maxNestDepth := by decide
  obtain ⟨tree, hd⟩ := climber_denotes (r := .ofSeed 0) hl
  have hx := (climber.finds_all_levels (maxNestDepth + 1) (.initial []) ⟨1⟩ _ _ _).2 ⟨_, hd, rfl⟩
  have hb := climber.follows_node (maxNestDepth + 1) ⟨1⟩ none [] ⟨.empty, .ofSeed 0⟩
    Arena.sound_empty
  rw [show climber.expandNode (maxNestDepth + 1) ⟨1⟩ [] (.ofSeed 0) = _ from hx] at hb
  generalize hy : climber.bindNode (maxNestDepth + 1) ⟨1⟩ none [] ⟨.empty, .ofSeed 0⟩ = y at hb
  cases hb
  exact ⟨_, _, rfl⟩

theorem climber_meets {r : Random} :
    climber.Meets ⟨1⟩ [] r (maxNestDepth + 1) .action ⟨130⟩ :=
  .action (climber_visits (Nat.le_refl maxNestDepth))
    (.named Pattern.steep_reference.1 Pattern.resolve_steep rfl)

/-- The chain can be bound, since its last action is empty. -/
theorem climber_within_limit :
    Arena.empty.Sound ∧
      (∃ id s', climber.bindNode (maxNestDepth + 1) ⟨1⟩ none [] ⟨.empty, .ofSeed 0⟩ =
        .ok (some id) s') ∧
      climber.pattern.children ⟨130⟩ = [] ∧
      ¬∃ level m calls r, climber.Visits ⟨1⟩ [] (.ofSeed 0) level m calls r ∧
        Crosses climber.pattern level m := by
  obtain ⟨id, s', hok⟩ := climber_binds
  have hs : (⟨.empty, .ofSeed 0⟩ : BindState).tasks.Sound := Arena.sound_empty
  obtain ⟨hlevels, hlimit⟩ := levels_are_limited hs
  refine ⟨Arena.sound_empty, ⟨id, s', hok⟩, ?_, ?_⟩
  · rcases hlevels _ _ hok _ _ _ climber_meets with hl | ⟨_, _, hempty⟩
    · exact absurd hl (by decide)
    · exact hempty
  · intro hcross
    obtain ⟨_, herror⟩ := hlimit.2 hcross
    cases hok.symm.trans herror

/-- The empty action is one level too deep, and the reference to it is let pass. -/
theorem empty_action_passes_limit :
    (¬∀ (b : Binder) n owner params s x s' level kind target, b.pattern.Built → s.tasks.Sound →
      b.bindNode (maxNestDepth + 1) n owner params s = .ok x s' →
      b.Meets n params s.random level kind target → level ≤ maxNestDepth) ∧
    ¬∀ (b : Binder) n owner params s m target calls r, b.pattern.Built → s.tasks.Sound →
      b.Visits n params s.random maxNestDepth m calls r → b.pattern.resolve m = .ok target →
      b.pattern.element m = .actionRef ∨ b.pattern.element m = .fireRef →
      ∃ s', b.bindNode (maxNestDepth + 1) n owner params s =
        .error (.recursionLimit maxNestDepth) s' := by
  obtain ⟨id, s', hok⟩ := climber_binds
  constructor
  · intro h
    have hl := h climber ⟨1⟩ none [] ⟨.empty, .ofSeed 0⟩ _ s' _ _ _ Pattern.built_steep
      Arena.sound_empty hok climber_meets
    exact absurd hl (by decide)
  · intro h
    obtain ⟨_, herror⟩ := h climber ⟨1⟩ none [] ⟨.empty, .ofSeed 0⟩ ⟨129⟩ _ _ _ Pattern.built_steep
      Arena.sound_empty (climber_visits (Nat.le_refl maxNestDepth)) Pattern.resolve_steep
      (.inl Pattern.steep_reference.1)
    cases hok.symm.trans herror

end Binder
end Barrage

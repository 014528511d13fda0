import Barrage.Proofs.Expansion
import Barrage.Proofs.Pattern

namespace Barrage

namespace TaskKind

/-- What was bound: the kind without its progress. -/
def shape : TaskKind → TaskKind
  | .repeat state => .repeat ⟨none, 0, state.room⟩
  | .changeDirection state => .changeDirection { state with ramp := none }
  | .changeSpeed state => .changeSpeed { state with ramp := none }
  | .accel state => .accel { state with ramp := none }
  | .wait _ => .wait none
  | kind => kind

/-- The nodes whose values a task of this kind reads or whose actions it binds. -/
def nodes : TaskKind → List NodeId
  | .fire state =>
    state.bullet :: (state.direction.toList ++ state.speed.toList).map ValueSource.node
  | .changeDirection state | .changeSpeed state => [state.value, state.term]
  | .accel state => state.horizontal.toList ++ state.vertical.toList ++ [state.term]
  | _ => []

def isRepeat : TaskKind → Bool
  | .repeat _ => true
  | _ => false

def isFire : TaskKind → Bool
  | .fire _ => true
  | _ => false

/-- A task of this kind has one child until it has finished. -/
def holdsOne : TaskKind → Bool
  | .repeat _ | .fire _ => true
  | _ => false

theorem nodes_shape (kind : TaskKind) : kind.shape.nodes = kind.nodes := by
  cases kind <;> rfl

theorem isRepeat_shape (kind : TaskKind) : kind.shape.isRepeat = kind.isRepeat := by
  cases kind <;> rfl

theorem holdsOne_shape (kind : TaskKind) : kind.shape.holdsOne = kind.holdsOne := by
  cases kind <;> rfl

end TaskKind

/-- A task of this kind for this node works on nodes of the pattern only. -/
structure Pattern.Bound (p : Pattern) (n : NodeId) (kind : TaskKind) : Prop where
  node : p.Has n
  nodes : ∀ n ∈ kind.nodes, p.Has n
  body : kind.isRepeat = true → p.element n = .repeat

theorem Pattern.Bound.of_shape {p : Pattern} {n : NodeId} {kind kind' : TaskKind}
    (h : p.Bound n kind) (hs : kind'.shape = kind.shape) : p.Bound n kind' where
  node := h.node
  nodes := by
    rw [← TaskKind.nodes_shape, hs, TaskKind.nodes_shape]
    exact h.nodes
  body := by
    rw [← TaskKind.isRepeat_shape, hs, TaskKind.isRepeat_shape]
    exact h.body

/-- Every task of the tree has its one child where it needs one, and is bound to the pattern if that
is closed, which is what `g` stands for. -/
inductive TaskTree.Proper (g : Prop) (p : Pattern) : TaskTree → Prop where
  | node (hb : g → p.Bound n kind) (ho : kind.holdsOne = true → ∃ c, below = [c])
      (hc : ∀ c ∈ below, Proper g p c) : Proper g p (.node n params kind below)

namespace Expansion

/-- The expansion gives what `Q` says, or fails with something that the pattern can raise. -/
def Yields {α : Type} (g : Prop) (p : Pattern) (x : Expansion α) (Q : α → Prop) : Prop :=
  ∀ r, match x r with
    | .ok a _ => Q a
    | .error e _ => g → p.Raises e

variable {g : Prop} {p : Pattern} {e : PatternError} {α β : Type} {x : Expansion α} {Q : α → Prop}
  {S : β → Prop}

theorem yields_pure {a : α} (h : Q a) : Yields g p (pure a) Q := fun _ => h

theorem yields_throw (h : g → p.Raises e) : Yields g p (throw e : Expansion α) Q := fun _ => h

theorem Yields.bind {f : α → Expansion β} (hx : Yields g p x Q)
    (hf : ∀ a, Q a → Yields g p (f a) S) :
    Yields g p (x >>= f) S := by
  intro r
  have h := hx r
  cases hr : x r with
  | error e s =>
    rw [hr] at h
    simp only [Bind.bind, EStateM.bind, hr]
    exact h
  | ok a s =>
    rw [hr] at h
    simp only [Bind.bind, EStateM.bind, hr]
    exact hf a h s

theorem Yields.map {f : α → β} (hx : Yields g p x Q) (hf : ∀ a, Q a → S (f a)) :
    Yields g p (f <$> x) S := by
  rw [map_eq_pure_bind]
  exact hx.bind fun a ha => yields_pure (hf a ha)

theorem yields_require {found : Except PatternError α} (ho : ∀ a, found = .ok a → Q a)
    (he : ∀ e, found = .error e → g → p.Raises e) : Yields g p (require found) Q := by
  cases found with
  | ok a => exact yields_pure (ho a rfl)
  | error e => exact yields_throw (he e rfl)

end Expansion

namespace Pattern

variable {p : Pattern} {id c : NodeId} {e : Element}

theorem required_error {err : PatternError} (h : p.required id e = .error err) (task : TaskId) :
    err ≠ .staleTask task := by
  unfold required at h
  split at h
  · cases h
  · cases h
    exact nofun

theorem resolve_error {err : PatternError} (h : p.resolve id = .error err) (task : TaskId) :
    err ≠ .staleTask task := by
  unfold resolve at h
  split at h
  · cases h
  · simp only at h
    split at h
    · cases h
    · cases h
      exact nofun

theorem raises_resolve (hi : p.Has id) (ht : (p.element id).refTarget? = some e)
    {err : PatternError} (h : p.resolve id = .error err) : p.Raises err := by
  refine raises_of_check hi ?_ (resolve_error h)
  intro hc
  unfold checkNode at hc
  cases he : p.element id <;> simp only [he, Element.refTarget?, reduceCtorEq] at ht hc
  all_goals
    rw [h] at hc
    cases hc

theorem body_of_check (he : p.element id = .repeat) (hc : p.checkNode id = .ok ()) :
    ∃ body, (p.child? id .action <|> p.child? id .actionRef) = some body := by
  simp only [checkNode, he] at hc
  cases ht : p.required id .times with
  | error err =>
    rw [ht] at hc
    cases hc
  | ok times =>
    rw [ht] at hc
    cases ha : p.child? id .action with
    | some body => exact ⟨body, rfl⟩
    | none =>
      cases hr : p.child? id .actionRef with
      | some body => exact ⟨body, rfl⟩
      | none =>
        simp only [ha, required, hr] at hc
        cases hc

theorem element_body {body : NodeId}
    (h : (p.child? id .action <|> p.child? id .actionRef) = some body) :
    body ∈ p.children id ∧ (p.element body = .action ∨ p.element body = .actionRef) := by
  cases ha : p.child? id .action with
  | some c =>
    rw [ha] at h
    cases h
    exact ⟨(child?_mem ha).1, .inl (child?_mem ha).2⟩
  | none =>
    rw [ha] at h
    exact ⟨(child?_mem h).1, .inr (child?_mem h).2⟩

end Pattern

namespace Binder
open Expansion

variable {g : Prop} {b : Binder} {child beyond : NodeExpander} {node : NodeId} {room : Nat}

/-- The expander gives proper trees, and one for every action and reference to an action. -/
def Expands (g : Prop) (p : Pattern) (child : NodeExpander) : Prop :=
  ∀ node params, (g → p.Has node) → Yields g p (child node params) fun tree =>
    (∀ t ∈ tree, t.Proper g p) ∧
      (p.element node = .action ∨ p.element node = .actionRef → tree.isSome = true)

theorem yields_passed (ref : NodeId) (params : List Float32) :
    Yields g b.pattern (b.passed ref params) fun _ => True := fun _ => trivial

theorem yields_children {p : Pattern} (hc : Expands g p child) (params : List Float32)
    {cs : List NodeId} (hs : ∀ c ∈ cs, g → p.Has c) :
    Yields g p (expandChildren child params cs) fun trees => ∀ t ∈ trees, t.Proper g p := by
  induction cs with
  | nil => exact yields_pure (by simp)
  | cons c cs ih =>
    apply (hc c params (hs c List.mem_cons_self)).bind
    intro tree ht
    apply (ih fun c h => hs c (List.mem_cons_of_mem _ h)).bind
    intro trees hts
    apply yields_pure
    intro t hm
    rcases List.mem_append.1 hm with hm | hm
    · exact ht.1 t (Option.mem_toList.1 hm)
    · exact hts t hm

theorem yields_action (hp : g → b.pattern.Closed) (hc : Expands g b.pattern child)
    (hn : g → b.pattern.Has node) (params : List Float32) :
    Yields g b.pattern (b.expandAction child node params) (TaskTree.Proper g b.pattern) := by
  apply (yields_children hc params fun c h hg => (hp hg).children node c h).bind
  intro trees ht
  apply yields_pure
  exact .node (fun hg => ⟨hn hg, by simp [TaskKind.nodes], nofun⟩) nofun ht

theorem yields_body (hp : g → b.pattern.Closed) (hc : Expands g b.pattern child)
    (hn : g → b.pattern.Has node) (he : g → b.pattern.element node = .repeat)
    (params : List Float32) :
    Yields g b.pattern (b.expandBody child node params) (TaskTree.Proper g b.pattern) := by
  unfold expandBody
  cases hb : b.pattern.child? node .action <|> b.pattern.child? node .actionRef with
  | none =>
    refine yields_throw fun hg => Pattern.raises_of_check (hn hg) ?_ nofun
    intro hk
    obtain ⟨body, h⟩ := Pattern.body_of_check (he hg) hk
    rw [hb] at h
    cases h
  | some body =>
    obtain ⟨hm, hel⟩ := Pattern.element_body hb
    apply (hc body params fun hg => (hp hg).children node body hm).bind
    intro tree ht
    obtain ⟨t, rfl⟩ := Option.isSome_iff_exists.1 (ht.2 hel)
    exact yields_pure (ht.1 t rfl)

theorem yields_repeat (hp : g → b.pattern.Closed) (hc : Expands g b.pattern child)
    (hn : g → b.pattern.Has node) (he : g → b.pattern.element node = .repeat)
    (params : List Float32) :
    Yields g b.pattern (b.expandRepeat room child node params) (TaskTree.Proper g b.pattern) := by
  have times : Yields g b.pattern (require (b.pattern.required node .times)) fun _ => True := by
    apply yields_require (fun _ _ => trivial)
    intro e h hg
    refine Pattern.raises_of_check (hn hg) ?_ (Pattern.required_error h)
    intro hk
    simp only [Pattern.checkNode, he hg, h] at hk
    cases hk
  apply times.bind
  intro _ _
  apply (yields_body hp hc hn he params).bind
  intro body hb
  apply yields_pure
  apply TaskTree.Proper.node (fun hg => ⟨hn hg, by simp [TaskKind.nodes], fun _ => he hg⟩)
    (fun _ => ⟨body, rfl⟩)
  intro c h
  rw [List.mem_singleton.1 h]
  exact hb

theorem yields_bullet (hp : g → b.pattern.Closed) (hn : g → b.pattern.Has node)
    (he : g → b.pattern.element node = .fire) (params : List Float32) :
    Yields g b.pattern (b.expandBullet node params) fun bullet =>
      g → b.pattern.Has bullet.1 := by
  unfold expandBullet
  cases hb : b.pattern.child? node .bullet with
  | some bullet => exact yields_pure fun hg => (hp hg).child? hb
  | none =>
    cases hr : b.pattern.child? node .bulletRef with
    | none =>
      refine yields_throw fun hg => Pattern.raises_of_check (hn hg) ?_ nofun
      intro hk
      simp [Pattern.checkNode, he hg, hb, hr] at hk
    | some ref =>
      have ht : (b.pattern.element ref).refTarget? = some .bullet := by
        rw [(Pattern.child?_mem hr).2]
        rfl
      have target : Yields g b.pattern (require (b.pattern.resolve ref)) fun bullet =>
          g → b.pattern.Has bullet :=
        yields_require (fun _ h hg => ((hp hg).resolve ht h).1)
          fun _ h hg => Pattern.raises_resolve ((hp hg).child? hr) ht h
      exact target.bind fun bullet hbullet => (yields_passed ref params).bind fun _ _ =>
        yields_pure hbullet

theorem has_locate (hp : b.pattern.Closed) (fire bullet : NodeId) (e : Element)
    {source : ValueSource} (h : b.locate fire bullet e = some source) :
    b.pattern.Has source.node := by
  unfold locate at h
  split at h
  · rename_i hc
    cases h
    exact hp.child? hc
  · obtain ⟨n, hc, rfl⟩ := Option.map_eq_some_iff.1 h
    exact hp.child? hc

theorem yields_fire (hp : g → b.pattern.Closed) (hn : g → b.pattern.Has node)
    (he : g → b.pattern.element node = .fire) (params : List Float32) :
    Yields g b.pattern (b.expandFire node params) (TaskTree.Proper g b.pattern) := by
  apply (yields_bullet hp hn he params).bind
  rintro ⟨bullet, ps⟩ hb
  apply yields_pure
  refine .node (fun hg => ⟨hn hg, ?_, nofun⟩) (fun _ => ⟨_, rfl⟩) ?_
  · intro n hm
    simp only [TaskKind.nodes, List.mem_cons, List.mem_map, List.mem_append,
      Option.mem_toList] at hm
    rcases hm with rfl | ⟨source, h | h, rfl⟩
    · exact hb hg
    · exact has_locate (hp hg) _ _ _ h
    · exact has_locate (hp hg) _ _ _ h
  · intro c hm
    rw [List.mem_singleton.1 hm]
    exact .node (fun hg => ⟨hb hg, by simp [TaskKind.nodes], nofun⟩) nofun (by simp)

theorem yields_fireRef (hp : g → b.pattern.Closed) (hn : g → b.pattern.Has node)
    (he : b.pattern.element node = .fireRef) (params : List Float32) :
    Yields g b.pattern (b.expandFireRef room node params) (TaskTree.Proper g b.pattern) := by
  have ht : (b.pattern.element node).refTarget? = some .fire := by
    rw [he]
    rfl
  have target : Yields g b.pattern (require (b.pattern.resolve node)) fun fire =>
      g → b.pattern.Has fire ∧ b.pattern.element fire = .fire :=
    yields_require (fun _ h hg => (hp hg).resolve ht h)
      fun _ h hg => Pattern.raises_resolve (hn hg) ht h
  apply target.bind
  intro fire hf
  apply (yields_passed node params).bind
  intro ps _
  cases room with
  | zero => exact yields_throw fun _ => Pattern.raises_recursionLimit
  | succ room => exact yields_fire hp (fun hg => (hf hg).1) (fun hg => (hf hg).2) ps

theorem yields_change (hp : g → b.pattern.Closed) (hn : g → b.pattern.Has node)
    (kind : ChangeState → TaskKind) (value : Element) (hc : b.pattern.checkNode node =
      (do let _ ← b.pattern.required node value; let _ ← b.pattern.required node .term))
    (hk : ∀ state, (kind state).nodes = [state.value, state.term])
    (ho : ∀ state, (kind state).holdsOne = false) (hr : ∀ state, (kind state).isRepeat = false)
    (params : List Float32) :
    Yields g b.pattern (b.expandChange kind value node params) (TaskTree.Proper g b.pattern) := by
  have found (e : Element) (hcheck : ∀ err, b.pattern.required node e = .error err →
      b.pattern.checkNode node ≠ .ok ()) :
      Yields g b.pattern (require (b.pattern.required node e)) fun n => g → b.pattern.Has n :=
    yields_require (fun _ h hg => (hp hg).required h) fun err h hg =>
      Pattern.raises_of_check (hn hg) (hcheck err h) (Pattern.required_error h)
  have first := found value fun err h hk => by
    rw [hc, h] at hk
    cases hk
  have second := found .term fun err h hk => by
    rw [hc, h] at hk
    cases hv : b.pattern.required node value <;> rw [hv] at hk <;> cases hk
  apply first.bind
  intro v hv
  apply second.bind
  intro term ht
  apply yields_pure
  refine .node (fun hg => ⟨hn hg, ?_, ?_⟩) ?_ (by simp)
  · intro n hm
    rw [hk, List.mem_cons, List.mem_singleton] at hm
    rcases hm with rfl | rfl
    · exact hv hg
    · exact ht hg
  · intro h
    rw [hr] at h
    cases h
  · intro h
    rw [ho] at h
    cases h

theorem yields_accel (hp : g → b.pattern.Closed) (hn : g → b.pattern.Has node)
    (he : b.pattern.element node = .accel) (params : List Float32) :
    Yields g b.pattern (b.expandAccel node params) (TaskTree.Proper g b.pattern) := by
  have found : Yields g b.pattern (require (b.pattern.required node .term)) fun n =>
      g → b.pattern.Has n := by
    apply yields_require (fun _ h hg => (hp hg).required h)
    intro err h hg
    refine Pattern.raises_of_check (hn hg) ?_ (Pattern.required_error h)
    intro hk
    simp only [Pattern.checkNode, he, h] at hk
    cases hk
  apply found.bind
  intro term ht
  apply yields_pure
  refine .node (fun hg => ⟨hn hg, ?_, nofun⟩) nofun (by simp)
  intro n hm
  simp only [TaskKind.nodes, List.mem_append, List.mem_singleton, Option.mem_toList] at hm
  rcases hm with (h | h) | rfl
  · exact (hp hg).child? h
  · exact (hp hg).child? h
  · exact ht hg

theorem Expands.over (hp : g → b.pattern.Closed) (hc : Expands g b.pattern child)
    (hb : Expands g b.pattern beyond) : Expands g b.pattern (b.expandOver room child beyond) := by
  intro node params hn
  have wrap {x : Expansion TaskTree} (h : Yields g b.pattern x (TaskTree.Proper g b.pattern)) :
      Yields g b.pattern (some <$> x) fun tree => (∀ t ∈ tree, t.Proper g b.pattern) ∧
        (b.pattern.element node = .action ∨ b.pattern.element node = .actionRef →
          tree.isSome = true) :=
    h.map fun t ht => ⟨fun t' h => by cases h; exact ht, fun _ => rfl⟩
  have leaf (kind : TaskKind) (hk : kind.nodes = []) (ho : kind.holdsOne = false)
      (hr : kind.isRepeat = false) : TaskTree.Proper g b.pattern (.node node params kind []) :=
    .node (fun hg => ⟨hn hg, by simp [hk], by simp [hr]⟩) (by simp [ho]) (by simp)
  unfold expandOver
  cases he : b.pattern.element node with
  | action => simpa only [he] using wrap (yields_action hp hc hn params)
  | actionRef =>
    have ht : (b.pattern.element node).refTarget? = some .action := by
      rw [he]
      rfl
    have target : Yields g b.pattern (require (b.pattern.resolve node)) fun n =>
        g → b.pattern.Has n :=
      yields_require (fun _ h hg => ((hp hg).resolve ht h).1)
        fun _ h hg => Pattern.raises_resolve (hn hg) ht h
    apply target.bind
    intro target htarget
    apply (yields_passed node params).bind
    intro ps _
    simpa only [he] using wrap (yields_action hp hb htarget ps)
  | fire => simpa only [he] using wrap (yields_fire hp hn (fun _ => he) params)
  | fireRef => simpa only [he] using wrap (yields_fireRef hp hn he params)
  | «repeat» => simpa only [he] using wrap (yields_repeat hp hc hn (fun _ => he) params)
  | wait => exact yields_pure ⟨fun t h => by cases h; exact leaf _ rfl rfl rfl, fun _ => rfl⟩
  | vanish => exact yields_pure ⟨fun t h => by cases h; exact leaf _ rfl rfl rfl, fun _ => rfl⟩
  | changeDirection =>
    have h := yields_change hp hn .changeDirection .direction (by rw [Pattern.checkNode, he])
      (fun _ => rfl) (fun _ => rfl) (fun _ => rfl) params
    simpa only [he] using wrap h
  | changeSpeed =>
    have h := yields_change hp hn .changeSpeed .speed (by rw [Pattern.checkNode, he])
      (fun _ => rfl) (fun _ => rfl) (fun _ => rfl) params
    simpa only [he] using wrap h
  | accel => simpa only [he] using wrap (yields_accel hp hn he params)
  | _ => exact yields_pure ⟨by simp, by simp⟩

theorem expands_refused (p : Pattern) : Expands g p expandRefused :=
  fun _ _ _ => yields_throw fun _ => Pattern.raises_recursionLimit

/-- Binding a node of a pattern gives proper tasks, and fails only as the pattern allows. -/
theorem expands_node (hp : g → b.pattern.Closed) (room : Nat) :
    Expands g b.pattern (b.expandNode room) := by
  induction room using Nat.twoStepInduction with
  | zero => exact expands_refused _
  | one => exact .over hp (expands_refused _) (expands_refused _)
  | more room ih ih' => exact .over hp ih' ih

end Binder
end Barrage

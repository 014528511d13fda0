import Barrage.Proofs.Bound
import Barrage.Proofs.Nesting
import Barrage.Proofs.Play

namespace Barrage

/-- The pattern passes its check, it refers to no actions and no fires, and every node of it can be
bound within the levels there are. Bullets it may refer to as it likes. -/
structure Pattern.Roomy (p : Pattern) : Prop where
  closed : p.Closed
  valid : p.validate = .ok ()
  inline : ∀ id, p.element id ≠ .actionRef ∧ p.element id ≠ .fireRef
  shallow : ∀ id, p.Has id → p.Shallow (maxNestDepth + 1) id

/-- A `repeat` has room for its bodies, which have chains up to `n`. -/
def TaskKind.Ample (p : Pattern) (node : NodeId) (n : Nat) : TaskKind → Prop
  | .repeat state => p.Has node ∧ p.element node = .repeat ∧ state.room < n ∧
    ∀ c ∈ p.children node, p.Shallow state.room c
  | _ => True

/-- No chain of tasks in the tree is longer than `n`, and every `repeat` has room for its bodies. -/
inductive WorkTree.Ample (p : Pattern) : Nat → WorkTree → Prop where
  | node {n : Nat} {node : NodeId} {params : List Float32} {kind : TaskKind} {phase : Phase}
      {children : List WorkTree} (hk : kind.Ample p node n) (hc : ∀ w ∈ children, Ample p n w) :
      Ample p (n + 1) (.node node params kind phase children)

variable {p : Pattern} {n room : Nat} {node : NodeId} {params : List Float32} {kind : TaskKind}

theorem TaskKind.ample_of_not_repeat (h : kind.isRepeat = false) : kind.Ample p node n := by
  cases kind with
  | «repeat» => cases h
  | _ => trivial

theorem TaskKind.Ample.mono {m : Nat} (h : kind.Ample p node m) (hn : m ≤ n) :
    kind.Ample p node n := by
  cases kind with
  | «repeat» => exact ⟨h.1, h.2.1, Nat.lt_of_lt_of_le h.2.2.1 hn, h.2.2.2⟩
  | _ => trivial

theorem WorkTree.Ample.mono {m : Nat} {w : WorkTree} (h : w.Ample p m) (hn : m ≤ n) :
    w.Ample p n := by
  induction h generalizing n with
  | @node m _ _ _ _ _ hk _ ih =>
    obtain ⟨n, rfl⟩ := Nat.exists_eq_add_of_le' hn
    rw [← Nat.add_assoc] at hn ⊢
    have hle : m ≤ n + m := Nat.le_add_left m n
    exact .node (hk.mono hle) fun w hw => ih w hw hle

theorem TaskTree.ample_freshAll {trees : List TaskTree} (h : ∀ tree ∈ trees, tree.fresh.Ample p n) :
    ∀ w ∈ freshAll trees, w.Ample p n := by
  induction trees with
  | nil => nofun
  | cons tree trees ih =>
    obtain ⟨hself, hrest⟩ := List.forall_mem_cons.1 h
    exact List.forall_mem_cons.2 ⟨hself, ih hrest⟩

theorem TaskTree.ample_fresh {below : List TaskTree} (hk : kind.Ample p node n)
    (hc : ∀ tree ∈ below, tree.fresh.Ample p n) :
    (TaskTree.node node params kind below).fresh.Ample p (n + 1) :=
  .node hk (ample_freshAll hc)

namespace Expansion

/-- The expansion gives what `Q` says, or fails for some other reason than a lack of levels. -/
def Affords {α : Type} (Q : α → Prop) (x : Expansion α) : Prop :=
  ∀ r, match x r with
    | .ok a _ => Q a
    | .error e _ => e ≠ .recursionLimit maxNestDepth

variable {α β : Type} {Q : α → Prop} {S : β → Prop} {x : Expansion α}

theorem affords_pure {a : α} (h : Q a) : Affords Q (pure a) := fun _ => h

theorem affords_throw {e : PatternError} (h : e ≠ .recursionLimit maxNestDepth) :
    Affords Q (throw e : Expansion α) := fun _ => h

theorem Affords.bind {f : α → Expansion β} (hx : Affords Q x)
    (hf : ∀ a, Q a → Affords S (f a)) : Affords S (x >>= f) := by
  intro r
  have h := hx r
  cases hr : x r with
  | error e s =>
    rw [hr] at h
    rw [bind_of_error hr]
    exact h
  | ok a s =>
    rw [hr] at h
    rw [bind_of_ok hr]
    exact hf a h s

theorem Affords.map {f : α → β} (hx : Affords Q x) (hf : ∀ a, Q a → S (f a)) :
    Affords S (f <$> x) := by
  rw [map_eq_pure_bind]
  exact hx.bind fun a ha => affords_pure (hf a ha)

theorem affords_required (p : Pattern) (id : NodeId) (e : Element) :
    Affords (fun _ => True) (require (p.required id e)) := by
  unfold Pattern.required
  cases p.child? id e with
  | none => exact affords_throw nofun
  | some c => exact affords_pure trivial

theorem affords_resolve (p : Pattern) (id : NodeId) :
    Affords (fun _ => True) (require (p.resolve id)) := by
  cases h : p.resolve id with
  | ok c => exact affords_pure trivial
  | error err =>
    apply affords_throw
    unfold Pattern.resolve at h
    split at h
    · cases h
    · simp only at h
      split at h
      · cases h
      · cases h
        exact nofun

/-- A pattern that passes its check can fail for a lack of levels only. -/
theorem Affords.ok (h : Affords Q x) {S : α → Prop} (hy : Yields True p x S)
    (hv : p.validate = .ok ()) (r : Random) : ∃ a r', x r = .ok a r' ∧ Q a := by
  have hq := h r
  have hs := hy r
  cases hx : x r with
  | ok a r' =>
    rw [hx] at hq
    exact ⟨a, r', rfl, hq⟩
  | error e r' =>
    rw [hx] at hq hs
    exact absurd ((hs trivial).of_valid hv) hq

end Expansion

namespace Binder
open Expansion

variable {b : Binder} {child beyond : NodeExpander}

/-- Within `room` levels, the expander does not lack levels for nodes that take up no more. -/
def Covers (p : Pattern) (room : Nat) (child : NodeExpander) : Prop :=
  ∀ node params, p.Has node → p.Shallow room node →
    Affords (fun tree => ∀ t ∈ tree, t.fresh.Ample p (room + 1)) (child node params)

theorem covers_refused : Covers p 0 expandRefused := fun _ _ _ h => nomatch h

theorem affords_passed (b : Binder) (ref : NodeId) (params : List Float32) :
    Affords (fun _ => True) (b.passed ref params) := fun _ => trivial

theorem Covers.children (hc : Covers p room child) (params : List Float32) {cs : List NodeId}
    (hs : ∀ c ∈ cs, p.Has c ∧ p.Shallow room c) :
    Affords (fun trees => ∀ t ∈ trees, t.fresh.Ample p (room + 1))
      (expandChildren child params cs) := by
  induction cs with
  | nil => exact affords_pure nofun
  | cons c cs ih =>
    obtain ⟨⟨hi, hself⟩, hrest⟩ := List.forall_mem_cons.1 hs
    apply (hc c params hi hself).bind
    intro tree ht
    apply (ih hrest).bind
    intro trees hts
    apply affords_pure
    intro t hm
    rcases List.mem_append.1 hm with hm | hm
    · exact ht t (Option.mem_toList.1 hm)
    · exact hts t hm

theorem Covers.body (hc : Covers b.pattern room child)
    (hs : ∀ c ∈ b.pattern.children node, b.pattern.Has c ∧ b.pattern.Shallow room c)
    (params : List Float32) :
    Affords (·.fresh.Ample b.pattern (room + 1)) (b.expandBody child node params) := by
  unfold expandBody
  cases hb : b.pattern.child? node .action <|> b.pattern.child? node .actionRef with
  | none => exact affords_throw nofun
  | some body =>
    obtain ⟨hi, hbody⟩ := hs body (Pattern.element_body hb).1
    apply (hc body params hi hbody).bind
    intro tree ht
    cases tree with
    | none => exact affords_throw nofun
    | some tree => exact affords_pure (ht tree rfl)

theorem affords_fire (b : Binder) (node : NodeId) (params : List Float32) :
    Affords (·.fresh.Ample p (room + 2)) (b.expandFire node params) := by
  have bullet : Affords (fun _ => True) (b.expandBullet node params) := by
    unfold expandBullet
    cases b.pattern.child? node .bullet with
    | some bullet => exact affords_pure trivial
    | none =>
      cases b.pattern.child? node .bulletRef with
      | none => exact affords_throw nofun
      | some ref =>
        apply (affords_resolve b.pattern ref).bind
        intro bullet _
        apply (b.affords_passed ref params).bind
        exact fun _ _ => affords_pure trivial
  apply bullet.bind
  intro held _
  apply affords_pure
  apply TaskTree.ample_fresh (TaskKind.ample_of_not_repeat rfl)
  intro tree hm
  rw [List.mem_singleton.1 hm]
  exact TaskTree.ample_fresh trivial nofun

theorem affords_change (b : Binder) {kind : ChangeState → TaskKind}
    (hk : ∀ state, (kind state).isRepeat = false) (value : Element) (node : NodeId)
    (params : List Float32) :
    Affords (·.fresh.Ample p (n + 1)) (b.expandChange kind value node params) := by
  apply (affords_required b.pattern node value).bind
  intro _ _
  apply (affords_required b.pattern node .term).bind
  intro _ _
  exact affords_pure (TaskTree.ample_fresh (TaskKind.ample_of_not_repeat (hk _)) nofun)

theorem affords_accel (b : Binder) (node : NodeId) (params : List Float32) :
    Affords (·.fresh.Ample p (n + 1)) (b.expandAccel node params) := by
  apply (affords_required b.pattern node .term).bind
  intro _ _
  exact affords_pure (TaskTree.ample_fresh trivial nofun)

/-- A level more affords nodes that take up a level more. -/
theorem Covers.over (hp : b.pattern.Roomy) (hc : Covers b.pattern room child) :
    Covers b.pattern (room + 1) (b.expandOver room child beyond) := by
  intro node params hi hshallow
  have hbelow (c : NodeId) (hm : c ∈ b.pattern.children node) :
      b.pattern.Has c ∧ b.pattern.Shallow room c :=
    ⟨hp.closed.children node c hm, hshallow.of_child hm⟩
  have wrap {x : Expansion TaskTree}
      (h : Affords (·.fresh.Ample b.pattern (room + 2)) x) :
      Affords (fun tree => ∀ t ∈ tree, t.fresh.Ample b.pattern (room + 2))
        (some <$> x) := by
    apply h.map
    intro tree ht t hm
    cases hm
    exact ht
  have leaf {kind : TaskKind} (hk : kind.isRepeat = false) :
      Affords (fun tree : Option TaskTree => ∀ t ∈ tree, t.fresh.Ample b.pattern (room + 2))
        (pure (some (.node node params kind []))) := by
    apply affords_pure
    intro t hm
    cases hm
    exact TaskTree.ample_fresh (TaskKind.ample_of_not_repeat hk) nofun
  unfold expandOver
  cases he : b.pattern.element node with
  | action =>
    apply wrap
    apply (hc.children params hbelow).bind
    intro trees ht
    exact affords_pure (TaskTree.ample_fresh trivial ht)
  | actionRef => exact absurd he (hp.inline node).1
  | fire => exact wrap (affords_fire b node params)
  | fireRef => exact absurd he (hp.inline node).2
  | «repeat» =>
    apply wrap
    apply (affords_required b.pattern node .times).bind
    intro _ _
    apply (hc.body hbelow params).bind
    intro body hb
    apply affords_pure
    have hk : (TaskKind.repeat ⟨none, 0, room⟩).Ample b.pattern node (room + 1) :=
      ⟨hi, he, Nat.lt_succ_self room, fun c hm => (hbelow c hm).2⟩
    apply TaskTree.ample_fresh hk
    intro tree hm
    rw [List.mem_singleton.1 hm]
    exact hb
  | wait => exact leaf rfl
  | vanish => exact leaf rfl
  | changeDirection => exact wrap (affords_change b (fun _ => rfl) .direction node params)
  | changeSpeed => exact wrap (affords_change b (fun _ => rfl) .speed node params)
  | accel => exact wrap (affords_accel b node params)
  | _ => exact affords_pure nofun

theorem covers_node (hp : b.pattern.Roomy) (room : Nat) :
    Covers b.pattern room (b.expandNode room) := by
  induction room using Nat.twoStepInduction with
  | zero => exact covers_refused
  | one => exact covers_refused.over hp
  | more room _ ih => exact ih.over hp

/-- Nodes of a roomy pattern can be bound as roots. -/
theorem expandRoots_ok (hp : b.pattern.Roomy) (params : List Float32) {cs : List NodeId}
    (hs : ∀ c ∈ cs, b.pattern.Has c) (r : Random) :
    ∃ trees r', expandChildren (b.expandNode (maxNestDepth + 1)) params cs r = .ok trees r' ∧
      ∀ w ∈ TaskTree.freshAll trees, w.Ample b.pattern maxTaskChain := by
  have hc := (covers_node hp (maxNestDepth + 1)).children params
    fun c hm => ⟨hs c hm, hp.shallow c (hs c hm)⟩
  have hy := yields_children (expands_node (g := True) (fun _ => hp.closed) (maxNestDepth + 1))
    params fun c hm _ => hs c hm
  obtain ⟨trees, r', hx, ht⟩ := hc.ok hy hp.valid r
  exact ⟨trees, r', hx, TaskTree.ample_freshAll ht⟩

/-- An ample `repeat` can have another body. -/
theorem expandBody_ok {state : RepeatState} (hp : b.pattern.Roomy)
    (hk : (TaskKind.repeat state).Ample b.pattern node n) (params : List Float32) (r : Random) :
    ∃ tree r', b.expandBody (b.expandNode state.room) node params r = .ok tree r' ∧
      tree.fresh.Ample b.pattern n := by
  obtain ⟨hi, he, hroom, hshallow⟩ := hk
  have hc := (covers_node hp state.room).body
    (fun c (hm : c ∈ b.pattern.children node) => ⟨hp.closed.children node c hm, hshallow c hm⟩)
    params
  have hy := yields_body (fun _ => hp.closed)
    (expands_node (g := True) (fun _ => hp.closed) state.room) (fun _ => hi) (fun _ => he) params
  obtain ⟨tree, r', hx, ht⟩ := hc.ok hy hp.valid r
  exact ⟨tree, r', hx, ht.mono hroom⟩

end Binder
end Barrage

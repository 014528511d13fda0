import Barrage.Proofs.Coupling
import Mathlib.Logic.Relation

namespace Barrage

/-- Whether the parameters decide what the expression evaluates to. -/
def Expr.isFixed : Expr → Bool
  | .const _ | .param _ => true
  | .rand | .rank | .direction | .speed => false
  | .neg e => e.isFixed
  | .binary _ a b => a.isFixed && b.isFixed

theorem Expr.eval_of_fixed {e : Expr} (h : e.isFixed = true) {s s' : Scope}
    (hs : s.params = s'.params) (r r' : Random) :
    ∃ v, e.eval s r = (v, r) ∧ e.eval s' r' = (v, r') := by
  induction e with
  | const v => exact ⟨v, rfl, rfl⟩
  | param i => exact ⟨_, rfl, by rw [eval, hs]⟩
  | neg e ih =>
    obtain ⟨v, hv, hv'⟩ := ih h
    exact ⟨-v, by rw [eval, hv], by rw [eval, hv']⟩
  | binary op a b iha ihb =>
    rw [isFixed, Bool.and_eq_true] at h
    obtain ⟨x, hx, hx'⟩ := iha h.1
    obtain ⟨y, hy, hy'⟩ := ihb h.2
    exact ⟨op.apply x y, by rw [eval, hx]; simp only [hy], by rw [eval, hx']; simp only [hy']⟩
  | _ => cases h

namespace Pattern

/-- The reference passes on what the parameters in force where it stands decide. -/
def PassesFixed (p : Pattern) (ref : NodeId) : Prop :=
  ∀ n ∈ p.childrenNamed ref .param, ∀ e, (p.node n).expr = some e → e.isFixed = true

/-- To bind the first node is to bind the second one too, for the same bullet. -/
inductive Binds (p : Pattern) : NodeId → NodeId → Prop where
  | child {n c : NodeId} (he : p.element n = .action) (hc : c ∈ p.children n) : Binds p n c
  | target {n c : NodeId} (he : p.element n = .actionRef ∨ p.element n = .fireRef)
      (hr : p.resolve n = .ok c) : Binds p n c
  | body {n c : NodeId} (he : p.element n = .repeat)
      (hc : (p.child? n .action <|> p.child? n .actionRef) = some c) : Binds p n c

/-- The node is no ramp, and the parameters in force decide what it passes on. -/
def Quiet (p : Pattern) (n : NodeId) : Prop :=
  match p.element n with
  | .changeDirection | .changeSpeed | .accel => False
  | .actionRef | .fireRef => p.PassesFixed n
  | .fire => ∀ ref, p.child? n .bullet = none → p.child? n .bulletRef = some ref →
    p.PassesFixed ref
  | _ => True

/-- All that is bound with the node for the same bullet is quiet. What the bullets do that it fires
does not matter. -/
def Settled (p : Pattern) (n : NodeId) : Prop :=
  ∀ m, Relation.ReflTransGen p.Binds n m → p.Quiet m

variable {p : Pattern} {n c : NodeId}

theorem Settled.quiet (h : p.Settled n) : p.Quiet n := h n .refl

theorem Settled.next (h : p.Settled n) (hc : p.Binds n c) : p.Settled c :=
  fun m hm => h m (.head hc hm)

theorem PassesFixed.evalNodes {ref : NodeId} (h : p.PassesFixed ref) (s s' : Scope)
    (hs : s.params = s'.params) (r r' : Random) :
    ∃ vs, p.evalNodes s (p.childrenNamed ref .param) r = (vs, r) ∧
      p.evalNodes s' (p.childrenNamed ref .param) r' = (vs, r') := by
  unfold PassesFixed at h
  generalize p.childrenNamed ref .param = ns at h ⊢
  induction ns with
  | nil => exact ⟨[], rfl, rfl⟩
  | cons n ns ih =>
    obtain ⟨hn, hns⟩ := List.forall_mem_cons.1 h
    obtain ⟨vs, hvs, hvs'⟩ := ih hns
    have hv : ∃ v, p.evalNode n s r = (v, r) ∧ p.evalNode n s' r' = (v, r') := by
      unfold evalNode
      cases he : (p.node n).expr with
      | none => exact ⟨0, rfl, rfl⟩
      | some e => exact Expr.eval_of_fixed (hn e he) hs r r'
    obtain ⟨v, hv, hv'⟩ := hv
    exact ⟨v :: vs, by rw [Pattern.evalNodes, hv]; simp only [hvs],
      by rw [Pattern.evalNodes, hv']; simp only [hvs']⟩

end Pattern

def TaskKind.isRamp : TaskKind → Bool
  | .changeDirection _ | .changeSpeed _ | .accel _ => true
  | _ => false

/-- No task of the tree goes on beside those that follow it, and none will that a `repeat` in it
binds. -/
inductive WorkTree.Plain (p : Pattern) : WorkTree → Prop where
  | node {n : NodeId} {params : List Float32} {kind : TaskKind} {phase : Phase}
      {children : List WorkTree} (hk : kind.isRamp = false)
      (hr : kind.isRepeat = true → p.element n = .repeat ∧ p.Settled n)
      (hc : ∀ w ∈ children, Plain p w) : Plain p (.node n params kind phase children)

theorem TaskTree.plain_fresh {p : Pattern} {n : NodeId} {params : List Float32} {kind : TaskKind}
    {children : List TaskTree} (hk : kind.isRamp = false)
    (hr : kind.isRepeat = true → p.element n = .repeat ∧ p.Settled n)
    (hc : ∀ tree ∈ children, tree.fresh.Plain p) :
    (TaskTree.node n params kind children).fresh.Plain p := by
  apply WorkTree.Plain.node hk hr
  intro w hw
  rw [freshAll_eq] at hw
  obtain ⟨tree, hm, rfl⟩ := List.mem_map.1 hw
  exact hc tree hm

namespace Expansion

/-- Two expansions that draw no random numbers give the same, for which `Q` holds, or fail alike. -/
inductive Same {α : Type} (Q : α → Prop) (r r' : Random) : EStateM.Result PatternError Random α →
    EStateM.Result PatternError Random α → Prop where
  | ok {a : α} (hq : Q a) : Same Q r r' (.ok a r) (.ok a r')
  | error {e : PatternError} : Same Q r r' (.error e r) (.error e r')

/-- Neither step draws random numbers, and both do the same. -/
def Inert {α : Type} (Q : α → Prop) (x y : Expansion α) : Prop := ∀ r r', Same Q r r' (x r) (y r')

variable {α β : Type} {Q : α → Prop} {R : β → Prop} {x y : Expansion α} {f g : α → Expansion β}

theorem Inert.pure {a : α} (hq : Q a) : Inert Q (pure a) (pure a) := fun _ _ => .ok hq

theorem Inert.throw (e : PatternError) : Inert Q (throw e) (throw e) := fun _ _ => .error

theorem Inert.bind (hx : Inert Q x y) (hf : ∀ a, Q a → Inert R (f a) (g a)) :
    Inert R (x >>= f) (y >>= g) := by
  intro r r'
  have h := hx r r'
  generalize hx : x r = u at h
  generalize hy : y r' = v at h
  cases h with
  | ok hq =>
    rw [bind_of_ok hx, bind_of_ok hy]
    exact hf _ hq r r'
  | error =>
    rw [bind_of_error hx, bind_of_error hy]
    exact .error

theorem Inert.map {k : α → β} (hx : Inert Q x y) (hk : ∀ a, Q a → R (k a)) :
    Inert R (k <$> x) (k <$> y) := by
  rw [map_eq_pure_bind, map_eq_pure_bind]
  exact hx.bind fun a hq => .pure (hk a hq)

theorem inert_require (found : Except PatternError α) :
    Inert (found = .ok ·) (require found) (require found) := by
  cases found with
  | ok a => exact .pure rfl
  | error e => exact .throw e

end Expansion

namespace Binder
open Expansion

variable {p : Pattern} {b b' : Binder} {child beyond child' beyond' : NodeExpander} {n : NodeId}

/-- Both expand a settled node to the same plain tree. -/
def Settles (p : Pattern) (child child' : NodeExpander) : Prop :=
  ∀ n params, p.Settled n →
    Inert (fun tree => ∀ t ∈ tree, t.fresh.Plain p) (child n params) (child' n params)

theorem passed_apply (b : Binder) (ref : NodeId) (params : List Float32) (r : Random) :
    b.passed ref params r =
      (let x := b.pattern.evalNodes ⟨params, b.rank, b.bullet.degrees, b.bullet.speed⟩
        (b.pattern.childrenNamed ref .param) r
      .ok x.1 x.2) := rfl

theorem inert_passed (hb : b.pattern = p) (hb' : b'.pattern = p) {ref : NodeId}
    (hr : p.PassesFixed ref) (params : List Float32) :
    Inert (fun _ => True) (b.passed ref params) (b'.passed ref params) := by
  intro r r'
  obtain ⟨vs, hvs, hvs'⟩ := hr.evalNodes ⟨params, b.rank, b.bullet.degrees, b.bullet.speed⟩
    ⟨params, b'.rank, b'.bullet.degrees, b'.bullet.speed⟩ rfl r r'
  have hx : b.passed ref params r = .ok vs r := by
    rw [passed_apply, hb, hvs]
  have hy : b'.passed ref params r' = .ok vs r' := by
    rw [passed_apply, hb', hvs']
  rw [hx, hy]
  exact .ok trivial

theorem inert_children (hc : Settles p child child') (params : List Float32) {ns : List NodeId}
    (hs : ∀ n ∈ ns, p.Settled n) :
    Inert (fun trees => ∀ t ∈ trees, t.fresh.Plain p) (expandChildren child params ns)
      (expandChildren child' params ns) := by
  induction ns with
  | nil => exact .pure nofun
  | cons n ns ih =>
    obtain ⟨hn, hns⟩ := List.forall_mem_cons.1 hs
    refine (hc n params hn).bind fun tree ht => (ih hns).bind fun trees hts => .pure ?_
    intro t hm
    rcases List.mem_append.1 hm with hm | hm
    · exact ht t (Option.mem_toList.1 hm)
    · exact hts t hm

theorem inert_action (hb : b.pattern = p) (hb' : b'.pattern = p) (hc : Settles p child child')
    (he : p.element n = .action) (hn : p.Settled n) (params : List Float32) :
    Inert (·.fresh.Plain p) (b.expandAction child n params)
      (b'.expandAction child' n params) := by
  unfold expandAction
  rw [hb, hb']
  apply (inert_children hc params fun c hm => hn.next (.child he hm)).bind
  intro trees ht
  exact .pure (TaskTree.plain_fresh rfl nofun ht)

theorem inert_body (hb : b.pattern = p) (hb' : b'.pattern = p) (hc : Settles p child child')
    (he : p.element n = .repeat) (hn : p.Settled n) (params : List Float32) :
    Inert (·.fresh.Plain p) (b.expandBody child n params) (b'.expandBody child' n params) := by
  unfold expandBody
  rw [hb, hb']
  cases hbody : p.child? n .action <|> p.child? n .actionRef with
  | none => exact .throw _
  | some body =>
    apply (hc body params (hn.next (.body he hbody))).bind
    intro tree ht
    cases tree with
    | none => exact .throw _
    | some tree => exact .pure (ht tree rfl)

theorem inert_repeat (hb : b.pattern = p) (hb' : b'.pattern = p) (hc : Settles p child child')
    (he : p.element n = .repeat) (hn : p.Settled n) (room : Nat) (params : List Float32) :
    Inert (·.fresh.Plain p) (b.expandRepeat room child n params)
      (b'.expandRepeat room child' n params) := by
  unfold expandRepeat
  rw [hb, hb']
  refine (inert_require _).bind fun _ _ => (inert_body hb hb' hc he hn params).bind
    fun body hbody => .pure ?_
  apply TaskTree.plain_fresh rfl fun _ => ⟨he, hn⟩
  intro tree hm
  rw [List.mem_singleton.1 hm]
  exact hbody

theorem inert_fire (hb : b.pattern = p) (hb' : b'.pattern = p) (he : p.element n = .fire)
    (hn : p.Quiet n) (params : List Float32) :
    Inert (·.fresh.Plain p) (b.expandFire n params) (b'.expandFire n params) := by
  have hbullet : Inert (fun _ => True) (b.expandBullet n params) (b'.expandBullet n params) := by
    unfold expandBullet
    rw [hb, hb']
    cases hc : p.child? n .bullet with
    | some bullet => exact .pure trivial
    | none =>
      cases href : p.child? n .bulletRef with
      | none => exact .throw _
      | some ref =>
        have hfixed : p.PassesFixed ref := by
          unfold Pattern.Quiet at hn
          rw [he] at hn
          exact hn ref hc href
        exact (inert_require _).bind fun _ _ => (inert_passed hb hb' hfixed params).bind
          fun _ _ => .pure trivial
  have hlocate (fire bullet : NodeId) (e : Element) :
      b.locate fire bullet e = b'.locate fire bullet e := by
    rw [locate, locate, hb, hb']
  unfold expandFire
  apply hbullet.bind
  rintro ⟨bullet, bulletParams⟩ _
  simp only [hlocate]
  apply Inert.pure
  apply TaskTree.plain_fresh (by rfl) (by exact nofun)
  intro tree hm
  rw [List.mem_singleton.1 hm]
  exact TaskTree.plain_fresh rfl nofun nofun

theorem inert_fireRef (hb : b.pattern = p) (hb' : b'.pattern = p) (hp : p.Closed)
    (he : p.element n = .fireRef) (hn : p.Settled n) (room : Nat) (params : List Float32) :
    Inert (·.fresh.Plain p) (b.expandFireRef room n params) (b'.expandFireRef room n params) := by
  have hfixed : p.PassesFixed n := by
    have hquiet := hn.quiet
    unfold Pattern.Quiet at hquiet
    rwa [he] at hquiet
  unfold expandFireRef
  rw [hb, hb']
  apply (inert_require _).bind
  intro fire hr
  apply (inert_passed hb hb' hfixed params).bind
  intro passed _
  have hkind := (hp.resolve (e := .fire) (by rw [he]; rfl) hr).2
  have hfire := inert_fire hb hb' hkind (hn.next (.target (.inr he) hr)).quiet passed
  split
  · exact .bind (.throw _ : Inert (fun _ : PUnit => True) _ _) fun _ _ => hfire
  · exact hfire

theorem settles_over (hb : b.pattern = p) (hb' : b'.pattern = p) (hp : p.Closed) (room : Nat)
    (hc : Settles p child child') (hbeyond : Settles p beyond beyond') :
    Settles p (b.expandOver room child beyond) (b'.expandOver room child' beyond') := by
  intro n params hn
  have some {x y : Expansion TaskTree} (h : Inert (·.fresh.Plain p) x y) :
      Inert (fun tree => ∀ t ∈ tree, t.fresh.Plain p) (Option.some <$> x) (Option.some <$> y) := by
    apply h.map
    intro tree ht t hm
    cases hm
    exact ht
  have leaf {kind : TaskKind} (hk : kind.isRamp = false) (hr : kind.isRepeat = false) :
      Inert (fun tree : Option TaskTree => ∀ t ∈ tree, t.fresh.Plain p)
        (pure (Option.some (.node n params kind []))) (pure (.some (.node n params kind []))) := by
    apply Inert.pure
    intro t hm
    cases hm
    refine TaskTree.plain_fresh hk (fun h => ?_) nofun
    rw [hr] at h
    cases h
  have hquiet := hn.quiet
  unfold Pattern.Quiet at hquiet
  unfold expandOver
  rw [hb, hb']
  cases he : p.element n with
  | action => exact some (inert_action hb hb' hc he hn params)
  | actionRef =>
    rw [he] at hquiet
    apply (inert_require _).bind
    intro target hr
    apply (inert_passed hb hb' hquiet params).bind
    intro passed _
    have hkind := (hp.resolve (e := .action) (by rw [he]; rfl) hr).2
    exact some (inert_action hb hb' hbeyond hkind (hn.next (.target (.inl he) hr)) passed)
  | fire => exact some (inert_fire hb hb' he hn.quiet params)
  | fireRef => exact some (inert_fireRef hb hb' hp he hn room params)
  | «repeat» => exact some (inert_repeat hb hb' hc he hn room params)
  | wait => exact leaf rfl rfl
  | vanish => exact leaf rfl rfl
  | changeDirection =>
    rw [he] at hquiet
    exact hquiet.elim
  | changeSpeed =>
    rw [he] at hquiet
    exact hquiet.elim
  | accel =>
    rw [he] at hquiet
    exact hquiet.elim
  | _ => exact .pure nofun

theorem settles_refused : Settles p expandRefused expandRefused := fun _ _ _ => .throw _

/-- What a settled node expands to does not depend on the rank, the bullet or the random numbers. -/
theorem settles_node (hb : b.pattern = p) (hb' : b'.pattern = p) (hp : p.Closed) (room : Nat) :
    Settles p (b.expandNode room) (b'.expandNode room) := by
  induction room using Nat.twoStepInduction with
  | zero => exact settles_refused
  | one => exact settles_over hb hb' hp 0 settles_refused settles_refused
  | more room ih ih' => exact settles_over hb hb' hp (room + 1) ih' ih

end Binder

namespace Play

variable {α β : Type} {p : Pattern} {Q : α → Prop} {R : β → Prop} {m : Play α} {f : α → Play β}

/-- Whenever the play succeeds, `Q` holds of its answer. -/
def Gives {α : Type} (Q : α → Prop) (m : Play α) : Prop := ∀ σ a σ', m σ = .ok a σ' → Q a

theorem Gives.pure {a : α} (hq : Q a) : Gives Q (pure a) := by
  intro σ a' σ' h
  cases h
  exact hq

theorem Gives.bind (hm : Gives Q m) (hf : ∀ a, Q a → Gives R (f a)) : Gives R (m >>= f) := by
  intro σ b σ' h
  obtain ⟨a, σ₁, ha, hb⟩ := ok_of_bind h
  exact hf a (hm σ a σ₁ ha) σ₁ b σ' hb

theorem Gives.any (m : Play α) : Gives (fun _ => True) m := fun _ _ _ _ => trivial

/-- What a plain tree answers, and leaves. -/
def PlainAnswer (p : Pattern) (x : Status × WorkTree) : Prop := x.1 ≠ .ongoing ∧ x.2.Plain p

variable {play : WorkTree → Play (Status × WorkTree)} {ws : List WorkTree} {n : NodeId}

theorem ended_ne_ongoing : Status.ended ≠ .ongoing := by decide

theorem paused_ne_ongoing : Status.paused ≠ .ongoing := by decide

theorem plain_sequence (hp : ∀ w, w.Plain p → Gives (PlainAnswer p) (play w))
    (hw : ∀ w ∈ ws, w.Plain p) {status : Status} (hs : status ≠ .ongoing) :
    Gives (fun x => x.1 ≠ .ongoing ∧ ∀ w ∈ x.2, w.Plain p) (sequence play ws status) := by
  induction ws generalizing status with
  | nil => exact .pure ⟨hs, List.forall_mem_nil _⟩
  | cons w ws ih =>
    obtain ⟨hhead, htail⟩ := List.forall_mem_cons.1 hw
    have rest {w : WorkTree} (hw : w.Plain p) {status : Status} (hs : status ≠ .ongoing) :
        Gives (fun x => x.1 ≠ .ongoing ∧ ∀ w ∈ x.2, w.Plain p) (do
          let x ← sequence play ws status
          pure (x.1, w :: x.2) : Play (Status × List WorkTree)) :=
      (ih htail hs).bind fun x hx => .pure ⟨hx.1, List.forall_mem_cons.2 ⟨hw, hx.2⟩⟩
    cases hf : w.isFinished with
    | true =>
      rw [sequence_of_finished hf]
      exact rest hhead hs
    | false =>
      rw [sequence_of_unfinished hf]
      refine (hp w hhead).bind ?_
      rintro ⟨answer, w'⟩ ⟨ha, hw'⟩
      have hall := List.forall_mem_cons.2 ⟨hw', htail⟩
      unfold follow
      split
      · exact .pure ⟨paused_ne_ongoing, hall⟩
      · refine (Gives.any isVanished).bind ?_
        intro vanished _
        split
        · exact .pure ⟨ended_ne_ongoing, hall⟩
        · apply rest hw'
          cases answer with
          | ongoing => exact absurd rfl ha
          | ended => exact hs
          | paused => exact hs

theorem plain_bodies (hp : ∀ w, w.Plain p → Gives (PlainAnswer p) (play w)) (hc : p.Closed)
    (he : p.element n = .repeat) (hn : p.Settled n) (params : List Float32) (room left : Nat)
    (done : UInt32) (hw : ∀ w ∈ ws, w.Plain p) :
    Gives (fun x => x.1 ≠ .ongoing ∧ ∀ w ∈ x.2.2, w.Plain p)
      (bodies p n params play room left done ws) := by
  induction left generalizing done ws with
  | zero => exact .pure ⟨ended_ne_ongoing, List.forall_mem_nil _⟩
  | succ left ih =>
    match ws with
    | [] => exact .pure ⟨ended_ne_ongoing, List.forall_mem_nil _⟩
    | w :: ws =>
      rw [bodies_succ]
      refine (hp w (List.forall_mem_cons.1 hw).1).bind ?_
      rintro ⟨answer, w'⟩ ⟨ha, hw'⟩
      unfold succeed
      split
      · refine (Gives.any isVanished).bind ?_
        intro vanished _
        split
        · exact .pure ⟨ended_ne_ongoing, List.forall_mem_nil _⟩
        · refine (Gives.any get).bind ?_
          intro σ _
          have fresh : Gives (·.fresh.Plain p) (expandFor p σ.motion fun b =>
              b.expandBody (b.expandNode room) n params) := by
            intro τ tree τ' h
            have hsame := Binder.inert_body (b := ⟨p, τ.context.rank, σ.motion.bullet⟩) rfl rfl
              (Binder.settles_node rfl rfl hc room) he hn params τ.context.random τ.context.random
            generalize hx : Binder.expandBody _ _ n params τ.context.random = x at hsame
            cases hsame with
            | ok hq =>
              rw [expandFor_of_ok hx] at h
              cases h
              exact hq
            | error =>
              rw [expandFor_of_error hx] at h
              cases h
          refine fresh.bind ?_
          intro tree ht
          exact ih _ (List.forall_mem_singleton.2 ht)
      · exact .pure ⟨ha, List.forall_mem_singleton.2 hw'⟩

/-- A plain tree holds up what follows it until it has ended. -/
theorem plain_tree (hc : p.Closed) (fuel : Nat) {w : WorkTree} (hw : w.Plain p) :
    Gives (PlainAnswer p) (tree p fuel w) := by
  induction fuel generalizing w with
  | zero =>
    intro _ _ _ h
    cases h
  | succ fuel ih =>
    cases hw with
    | @node n params kind phase ws hk hr hws =>
      have leaf {m : Play (Status × TaskKind)}
          (h : Gives (fun x => x.1 ≠ .ongoing ∧ x.2.isRamp = false ∧ x.2.isRepeat = false) m) :
          Gives (PlainAnswer p) (do
            let x ← (do let x ← m; pure (x.1, x.2, ws) : Play (Status × TaskKind × List WorkTree))
            pure (x.1, .node n params x.2.1 (Play.phase phase x.1) x.2.2)) := by
        rw [bind_assoc]
        refine h.bind ?_
        rintro ⟨status, kind⟩ ⟨hs, hk, hr⟩
        refine .pure ⟨hs, .node hk (fun h => ?_) hws⟩
        rw [hr] at h
        cases h
      rw [tree]
      split
      · exact .pure ⟨ended_ne_ongoing, .node hk hr hws⟩
      · have children {kind : TaskKind} (hk : kind.isRamp = false) (hr : kind.isRepeat = false) :
            Gives (PlainAnswer p) (do
              let x ← (do
                let x ← sequence (tree p fuel) ws .ended
                pure (x.1, kind, x.2) : Play (Status × TaskKind × List WorkTree))
              pure (x.1, .node n params x.2.1 (Play.phase phase x.1) x.2.2)) := by
          rw [bind_assoc]
          refine (plain_sequence (fun _ => ih) hws ended_ne_ongoing).bind ?_
          rintro ⟨status, ws'⟩ ⟨hs, hws'⟩
          refine .pure ⟨hs, .node hk (fun h => ?_) hws'⟩
          rw [hr] at h
          cases h
        cases kind with
        | action => exact children rfl rfl
        | bullet => exact children rfl rfl
        | «repeat» st =>
          obtain ⟨he, hn⟩ := hr rfl
          rw [Play.kind, bind_assoc]
          refine (Gives.any (times p n params st)).bind ?_
          intro times _
          rw [bind_assoc]
          refine (plain_bodies (fun _ => ih) hc he hn params st.room _ st.done hws).bind ?_
          rintro ⟨status, done, ws'⟩ ⟨hs, hws'⟩
          exact .pure ⟨hs, .node rfl (fun _ => ⟨he, hn⟩) hws'⟩
        | fire st =>
          rw [Play.kind, bind_assoc]
          refine (Gives.any (fire p params st ws)).bind ?_
          intro _ _
          exact .pure ⟨ended_ne_ongoing, .node rfl (absurd · Bool.false_ne_true) hws⟩
        | changeDirection => cases hk
        | changeSpeed => cases hk
        | accel => cases hk
        | wait remaining =>
          apply leaf
          unfold wait
          have counted (k : UInt32) : Gives
              (fun x : Status × TaskKind => x.1 ≠ .ongoing ∧ x.2.isRamp = false ∧
                x.2.isRepeat = false)
              (if k == 0 then pure (.ended, .wait (some 0))
                else pure (.paused, .wait (some (k - 1)))) := by
            split
            · exact .pure ⟨ended_ne_ongoing, rfl, rfl⟩
            · exact .pure ⟨paused_ne_ongoing, rfl, rfl⟩
          cases remaining with
          | some k => exact counted k
          | none => exact (Gives.any _).bind fun k _ => counted k
        | vanish =>
          rw [Play.kind, bind_assoc]
          refine (Gives.any (modifyMotion _)).bind ?_
          intro _ _
          exact .pure ⟨ended_ne_ongoing, .node rfl (absurd · Bool.false_ne_true) hws⟩

end Play
end Barrage

import Barrage.Proofs.Loading
import Barrage.Proofs.Splicing
import Mathlib

namespace Barrage

namespace Pattern

variable {p : Pattern} {n t body : NodeId} {v : Float32}

/-- Whether the node binds no other and passes nothing on. -/
def isStill (p : Pattern) (n : NodeId) : Bool :=
  match p.element n with
  | .fire => (p.child? n .bullet).isSome
  | .wait | .vanish => true
  | _ => false

theorem settled_of_next (hq : p.Quiet n) (hn : ∀ c, p.Binds n c → p.Settled c) : p.Settled n := by
  intro m hm
  rcases hm.cases_head with rfl | ⟨c, hc, hrest⟩
  · exact hq
  · exact hn c hc m hrest

theorem settled_of_isStill (h : p.isStill n = true) : p.Settled n := by
  apply settled_of_next
  · unfold Quiet
    unfold isStill at h
    split at h
    · rename_i he
      rw [he]
      intro ref hnone
      rw [hnone] at h
      cases h
    · rename_i he
      rw [he]
      trivial
    · rename_i he
      rw [he]
      trivial
    · cases h
  · intro c hc
    unfold isStill at h
    cases hc with
    | child he =>
      rw [he] at h
      cases h
    | target he =>
      rcases he with he | he
      · rw [he] at h
        cases h
      · rw [he] at h
        cases h
    | body he =>
      rw [he] at h
      cases h

/-- An action of waits and shots is settled. -/
theorem settled_of_still_children (he : p.element n = .action)
    (hc : ∀ c ∈ p.children n, p.isStill c = true) : p.Settled n := by
  apply settled_of_next
  · unfold Quiet
    rw [he]
    trivial
  · intro c hbinds
    cases hbinds with
    | child _ hm => exact settled_of_isStill (hc c hm)
    | target hr =>
      rw [he] at hr
      rcases hr with hr | hr <;> cases hr
    | body hr =>
      rw [he] at hr
      cases hr

/-- A `repeat` with a constant number of times always runs its body as often. -/
theorem rolls_of_const (he : p.element n = .repeat) (ht : p.child? n .times = some t)
    (hx : (p.node t).expr = some (.const v)) (hl : Binary32.toCount v ≤ maxRepeat)
    (hi : p.child? n .action = some body) (hs : p.Settled body)
    (h0 : Binary32.toCount v = 0 → p.validate = .ok ()) :
    p.Rolls n (Binary32.toCount v) body where
  element := he
  count := by
    refine ⟨t, ht, fun scope r => ⟨v, ?_, rfl⟩⟩
    rw [evalNode, hx]
    rfl
  limit := hl
  inline := hi
  settled := hs
  empty := h0

end Pattern

namespace HostCall

variable {p q : Pattern} {ρ : NodeId → NodeId → Prop} {calls calls' : List HostCall}

/-- A `repeat` that always runs a settled body the same number of times runs as that many copies of
the body do: where some are replaced by such copies, nothing that a host can see of a run changes,
unless the tasks of the first pattern are nested too deep. -/
theorem repeats_run_as_copies (h : Pattern.Recasts .unroll p q ρ) (capacity : Nat)
    (seed : UInt64) (rank : Float32) (cull : Option Bounds) (margin : Float32)
    (hc : List.Forall₂ (Swaps p q) calls calls')
    (hf : SufficeAll p calls (.init capacity seed rank cull margin))
    (hw : (performAll calls (.init capacity seed rank cull margin)).tasks.NoWrap)
    (hw' : (performAll calls' (.init capacity seed rank cull margin)).tasks.NoWrap) :
    RunAlike calls calls' (.init capacity seed rank cull margin) :=
  run_alike h hc (Simulation.paired_init capacity seed rank cull margin) hf hw hw'

end HostCall

namespace Pattern

/-- Adds an action that fires a bullet and rests for a frame. -/
def addShot (p : Pattern) (parent : NodeId) : Pattern :=
  let (action, p) := p.addNode parent .action
  let (fire, p) := p.addNode action .fire
  let (_, p) := p.addNode fire .bullet
  let (wait, p) := p.addNode action .wait
  p.setExpr wait (.const 1)

/-- Fires two bullets by a `repeat`. -/
def volley : Pattern :=
  let p := ((ofName "volley").addNode root .action).2
  let p := (p.setLabel ⟨1⟩ "top").1
  let p := (p.addNode ⟨1⟩ .repeat).2
  let p := (p.addNode ⟨2⟩ .times).2
  let p := p.setExpr ⟨3⟩ (.const 2)
  let p := p.addShot ⟨2⟩
  (p.addNode ⟨1⟩ .vanish).2

/-- Fires the same bullets one by one. -/
def salvo : Pattern :=
  let p := ((ofName "volley").addNode root .action).2
  let p := (p.setLabel ⟨1⟩ "top").1
  let p := p.addShot ⟨1⟩
  let p := p.addShot ⟨1⟩
  (p.addNode ⟨1⟩ .vanish).2

/-- The nodes of the one and their copies in the other. -/
def volleyCopies : List (Nat × Nat) :=
  [(0, 0), (1, 1), (4, 2), (5, 3), (6, 4), (7, 5), (4, 6), (5, 7), (6, 8), (7, 9), (8, 10)]

/-- The node has a copy there. -/
def VolleyCopy (a b : NodeId) : Prop := (a.index, b.index) ∈ volleyCopies

instance (a b : NodeId) : Decidable (VolleyCopy a b) :=
  inferInstanceAs (Decidable (_ ∈ volleyCopies))

theorem VolleyCopy.check {P : NodeId → NodeId → Prop}
    (h : ∀ copy ∈ volleyCopies, P ⟨copy.1⟩ ⟨copy.2⟩) (a b : NodeId) (hab : VolleyCopy a b) :
    P a b := h _ hab

theorem closed_volley : volley.Closed := by
  have hbuilt : volley.Built := by
    refine .addNode _ _ (.setExpr _ (.addNode _ _ (.addNode _ _ (.addNode _ _ (.addNode _ _
      (.setExpr _ (.addNode _ _ (.addNode _ _ (.setLabel _ (.addNode _ _ (.ofName "volley")
        ?_) ?_) ?_) ?_) ?_) ?_) ?_) ?_) ?_) ?_) ?_
    all_goals decide +kernel
  exact hbuilt.closed

theorem rolls_volley : volley.Rolls ⟨2⟩ (Binary32.toCount 2) ⟨4⟩ := by
  have haction : volley.element ⟨4⟩ = .action := by decide +kernel
  have hstill : ∀ c ∈ volley.children ⟨4⟩, volley.isStill c = true := by decide +kernel
  have hsettled : volley.Settled ⟨4⟩ := settled_of_still_children haction hstill
  exact rolls_of_const (t := ⟨3⟩) (by decide +kernel) (by decide +kernel) (by cbv)
    (by decide +kernel) (by decide +kernel) hsettled (by decide +kernel)

theorem aligned_volley (a b : NodeId) (hab : VolleyCopy a b) :
    Aligned .unroll volley salvo VolleyCopy (volley.element a == .action) (volley.children a)
      (salvo.children b) := by
  have hpairs : ∀ copy ∈ volleyCopies, copy = (1, 1) ∨
      List.Forall₂ VolleyCopy (volley.children ⟨copy.1⟩) (salvo.children ⟨copy.2⟩) := by
    decide +kernel
  rcases hpairs _ hab with htop | hrest
  · obtain ⟨rfl, rfl⟩ : a = ⟨1⟩ ∧ b = ⟨1⟩ := by
      obtain ⟨ha, hb⟩ := Prod.mk.inj htop
      exact ⟨congrArg NodeId.mk ha, congrArg NodeId.mk hb⟩
    have hcopies : ∀ d ∈ [(⟨2⟩ : NodeId), ⟨6⟩], VolleyCopy ⟨4⟩ d := by decide
    exact .unroll rfl rolls_volley (by decide +kernel) hcopies (.keep (by decide) .nil)
  · exact aligned_of_forall₂ hrest

theorem recasts_volley : Recasts .unroll volley salvo VolleyCopy where
  closed := closed_volley
  outer := rfl
  root := by decide
  element := VolleyCopy.check (by decide +kernel)
  label := VolleyCopy.check (by decide +kernel)
  mode := VolleyCopy.check (by decide +kernel)
  expr := by
    apply VolleyCopy.check
    simp only [volleyCopies, List.forall_mem_cons]
    refine ⟨?_, ?_, ?_, ?_, ?_, ?_, ?_, ?_, ?_, ?_, ?_, nofun⟩
    all_goals cbv
  children := aligned_volley
  lookup kind label := by
    have hdefs : volley.definitions = [⟨.action, "top", ⟨1⟩⟩] := rfl
    have hdefs' : salvo.definitions = [⟨.action, "top", ⟨1⟩⟩] := rfl
    rw [lookup?, lookup?, hdefs, hdefs', List.find?_singleton]
    split
    · exact .some (by decide)
    · exact .none

end Pattern

/-- The shots of three frames, after which the emitter is gone. -/
def HostCall.threeFrames (p : Pattern) : List HostCall :=
  [.spawn p .zero, .update 0, .update 0, .update 0]

theorem HostCall.volley_runs_as_salvo :
    Pattern.volley.Rolls ⟨2⟩ (Binary32.toCount 2) ⟨4⟩ ∧
    Pattern.salvo.children ⟨1⟩ = [⟨2⟩, ⟨6⟩, ⟨10⟩] ∧
    (performAll (threeFrames .volley) (.init 8 0 0 none 0)).context.stats = ⟨2, 0, 1⟩ ∧
    RunAlike (threeFrames .volley) (threeFrames .salvo) (.init 8 0 0 none 0) := by
  have hswaps : List.Forall₂ (Swaps .volley .salvo) (threeFrames .volley) (threeFrames .salvo) :=
    .cons (.spawn .zero) (.cons (.same nofun) (.cons (.same nofun) (.cons (.same nofun) .nil)))
  refine ⟨Pattern.rolls_volley, by decide +kernel, by decide +kernel, ?_⟩
  apply repeats_run_as_copies Pattern.recasts_volley 8 0 0 none 0 hswaps
  · exact sufficeAll_of_areFed (by decide +kernel) _
  · decide +kernel
  · decide +kernel

namespace Pattern

/-- Fires a bullet by a label. -/
def shade : Pattern :=
  let p := ((ofName "shade").addNode root .fire).2
  let p := (p.setLabel ⟨1⟩ "shot").1
  let p := (p.addNode ⟨1⟩ .speed).2
  let p := p.setExpr ⟨2⟩ (.const 1)
  let p := (p.addNode ⟨1⟩ .bullet).2
  let p := (p.addNode root .action).2
  let p := (p.setLabel ⟨4⟩ "top").1
  let p := (p.addNode ⟨4⟩ .fireRef).2
  (p.setLabel ⟨5⟩ "shot").1

/-- Defines that label once more, in the body of a `repeat` that never runs it. -/
def shadow : Pattern :=
  let p := (shade.addNode ⟨4⟩ .repeat).2
  let p := (p.addNode ⟨6⟩ .times).2
  let p := p.setExpr ⟨7⟩ (.const 0)
  let p := (p.addNode ⟨6⟩ .action).2
  let p := (p.addNode ⟨8⟩ .fire).2
  let p := (p.setLabel ⟨9⟩ "shot").1
  let p := (p.addNode ⟨9⟩ .speed).2
  let p := p.setExpr ⟨10⟩ (.const 2)
  (p.addNode ⟨9⟩ .bullet).2

theorem validate_shadow : shadow.validate = .ok () := by
  have hok : shadow.validate.isOk = true := by decide +kernel
  cases hv : shadow.validate with
  | ok => rfl
  | error e =>
    rw [hv] at hok
    cases hok

set_option maxRecDepth 1000 in
theorem rolls_shadow : shadow.Rolls ⟨6⟩ (Binary32.toCount 0) ⟨8⟩ := by
  have haction : shadow.element ⟨8⟩ = .action := by decide +kernel
  have hstill : ∀ c ∈ shadow.children ⟨8⟩, shadow.isStill c = true := by decide +kernel
  have hsettled : shadow.Settled ⟨8⟩ := settled_of_still_children haction hstill
  exact rolls_of_const (t := ⟨7⟩) (by decide +kernel) (by decide +kernel) (by cbv)
    (by decide +kernel) (by decide +kernel) hsettled fun _ => validate_shadow

/-- Does nothing. -/
def void : Pattern :=
  let p := ((ofName "void").addNode root .action).2
  (p.setLabel ⟨1⟩ "top").1

/-- Has a `repeat` that never runs its body, which could not be bound. -/
def hollow : Pattern :=
  let p := (void.addNode ⟨1⟩ .repeat).2
  let p := (p.addNode ⟨2⟩ .times).2
  let p := p.setExpr ⟨3⟩ (.const 0)
  let p := (p.addNode ⟨2⟩ .action).2
  (p.addNode ⟨4⟩ .fire).2

end Pattern

/-- The start and one frame of a pattern. -/
def HostCall.oneFrame (p : Pattern) : List HostCall := [.spawn p .zero, .update 0]

/-- A `repeat` that never runs its body is not as if it were not there. A label that is defined in
the body is in force, and hides one that was defined before. And the body is bound, if only once, so
that a fault in it is a fault of the pattern. -/
theorem HostCall.idle_repeat_is_not_void :
    (Pattern.shadow.Rolls ⟨6⟩ (Binary32.toCount 0) ⟨8⟩ ∧ Pattern.shadow.children ⟨4⟩ = [⟨5⟩, ⟨6⟩] ∧
      Pattern.shade.children ⟨4⟩ = [⟨5⟩] ∧
      SufficeAll .shadow (oneFrame .shadow) (.init 8 0 0 none 0) ∧
      SufficeAll .shade (oneFrame .shade) (.init 8 0 0 none 0) ∧
      ¬RunAlike (oneFrame .shadow) (oneFrame .shade) (.init 8 0 0 none 0)) ∧
    Pattern.hollow.children ⟨1⟩ = [⟨2⟩] ∧ Pattern.void.children ⟨1⟩ = [] ∧
      ¬RunAlike (oneFrame .hollow) (oneFrame .void) (.init 8 0 0 none 0) := by
  refine ⟨⟨Pattern.rolls_shadow, by decide +kernel, by decide +kernel,
    sufficeAll_of_areFed (by decide +kernel) _, sufficeAll_of_areFed (by decide +kernel) _, ?_⟩,
    by decide +kernel, by decide +kernel, ?_⟩
  · intro h
    exact absurd (congrArg (Option.map Motion.speed) ((h 2).1.motions ⟨1, 0⟩)) (by decide +kernel)
  · intro h
    exact absurd (h 2).1.ids (by decide +kernel)

end Barrage

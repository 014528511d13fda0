import Barrage.Proofs.Coupling
import Barrage.Simulation.Frame

namespace Barrage

/-- What a frame depends on besides the bullets and their tasks. -/
structure Conditions where
  rank : Float32
  target : Point
  cull : Option Bounds
  cullMargin : Float32
  dt : Float32

namespace Conditions

def isOutside (c : Conditions) (pos : Point) : Bool :=
  match c.cull with
  | some bounds => !bounds.contains pos c.cullMargin
  | none => false

/-- One frame of flight, after which a motion that leads outside has vanished. -/
def fly (c : Conditions) (m : Motion) : Motion :=
  let b := m.bullet.move (c.dt * referenceFps)
  { b.motion with vanished := b.vanished || c.isOutside b.pos }

end Conditions

/-- The trees that a play has left; a fault leaves none. -/
def Play.left : EStateM.Result PatternError Stage (List WorkTree) → List WorkTree
  | .ok ws _ => ws
  | .error _ _ => []

/-- One frame of an actor under some conditions, with the actors that it has fired. It may find any
random numbers, any last fire and any room, as long as no bullet is dropped. -/
inductive Actor.Acts (p : Pattern) (c : Conditions) (a : Actor) : Actor → List Actor → Prop where
  | drifts (hv : a.motion.vanished = true) : Acts p c a ⟨c.fly a.motion, a.roots⟩ []
  | plays {σ : Stage} {x : EStateM.Result PatternError Stage (List WorkTree)}
      (hv : a.motion.vanished = false) (hm : σ.motion = a.motion) (hr : σ.context.rank = c.rank)
      (ht : σ.context.target = c.target) (hc : σ.cast = []) (hx : Play.roots p a.roots σ = x)
      (hd : (Play.stage x).dropped = σ.dropped) :
      Acts p c a ⟨c.fly (Play.stage x).motion, Play.left x⟩ (Play.stage x).cast

/-- One frame of some actors, with all actors that they have fired. -/
inductive Acted (p : Pattern) (c : Conditions) :
    List Actor → List Actor → List Actor → Prop where
  | nil : Acted p c [] [] []
  | cons {a a' : Actor} {as as' cast more : List Actor} (ha : a.Acts p c a' cast)
      (hs : Acted p c as as' more) : Acted p c (a :: as) (a' :: as') (cast ++ more)

/-- The actors of a pattern that was started at a point, after frames under some conditions. -/
inductive Performance (p : Pattern) (pos : Point) (rank : Float32) :
    List Conditions → List Actor → Prop where
  | opens {trees : List TaskTree} {r r' : Random}
      (hx : Binder.expandChildren ((⟨p, rank, (Motion.rest pos).bullet⟩ : Binder).expandNode
        (maxNestDepth + 1)) [] p.topActions r = .ok trees r') :
      Performance p pos rank [] [⟨.rest pos, TaskTree.freshAll trees⟩]
  | frame {cs : List Conditions} {c : Conditions} {as as' cast : List Actor}
      (h : Performance p pos rank cs as) (hf : Acted p c as as' cast) :
      Performance p pos rank (cs ++ [c]) ((as' ++ cast).filter (!·.motion.vanished))

/-- No fire of the actor goes on from the fire before it. -/
def Actor.Calm (p : Pattern) (a : Actor) : Prop := ∀ w ∈ a.roots, w.Calm p

variable {p : Pattern} {c : Conditions} {a a₁ a₂ : Actor} {as as₁ as₂ cast₁ cast₂ : List Actor}

theorem Play.Agree.left {n k : Nat} {x y : EStateM.Result PatternError Stage (List WorkTree)}
    (h : Agree p (fun ws => ∀ w ∈ ws, w.Calm p) n k x y) (hx : (stage x).dropped = n)
    (hy : (stage y).dropped = k) :
    Play.left x = Play.left y ∧ (∀ w ∈ Play.left x, w.Calm p) ∧ (stage x).Alike p (stage y) := by
  cases h with
  | ok hq hs => exact ⟨rfl, hq, hs⟩
  | error hs => exact ⟨rfl, nofun, hs⟩
  | dropped hd => omega

/-- What a calm actor of a tame pattern does in a frame is decided by the conditions. -/
theorem Actor.Acts.unique (hp : p.Tame) (hc : a.Calm p) (h₁ : a.Acts p c a₁ cast₁)
    (h₂ : a.Acts p c a₂ cast₂) :
    a₁ = a₂ ∧ cast₁ = cast₂ ∧ a₁.Calm p ∧ ∀ b ∈ cast₁, b.Calm p := by
  cases h₁ with
  | drifts hv₁ =>
    cases h₂ with
    | drifts => exact ⟨rfl, rfl, hc, nofun⟩
    | plays hv₂ =>
      rw [hv₁] at hv₂
      cases hv₂
  | @plays σ _ hv₁ hm hr ht hcast hx hd =>
    cases h₂ with
    | drifts hv₂ =>
      rw [hv₁] at hv₂
      cases hv₂
    | @plays τ _ hv₂ hm' hr' ht' hcast' hx' hd' =>
      subst hx hx'
      have halike : σ.Alike p τ := by
        refine ⟨hm.trans hm'.symm, hr.trans hr'.symm, ht.trans ht'.symm,
          hcast.trans hcast'.symm, ?_⟩
        rw [hcast]
        nofun
      obtain ⟨hleft, hcalm, hs⟩ := ((Play.steady_roots hp hc).agree σ τ halike).left hd hd'
      rw [hleft, hs.motion]
      exact ⟨rfl, hs.cast, hleft ▸ hcalm, hs.calm⟩

theorem Acted.unique (hp : p.Tame) (hc : ∀ a ∈ as, a.Calm p) (h₁ : Acted p c as as₁ cast₁)
    (h₂ : Acted p c as as₂ cast₂) :
    as₁ = as₂ ∧ cast₁ = cast₂ ∧ (∀ a ∈ as₁, a.Calm p) ∧ ∀ a ∈ cast₁, a.Calm p := by
  induction h₁ generalizing as₂ cast₂ with
  | nil =>
    cases h₂
    exact ⟨rfl, rfl, nofun, nofun⟩
  | cons ha _ ih =>
    cases h₂ with
    | cons ha' hs' =>
      obtain ⟨hhead, htail⟩ := List.forall_mem_cons.1 hc
      obtain ⟨rfl, rfl, hcalm, hcast⟩ := ha.unique hp hhead ha'
      obtain ⟨rfl, rfl, hcalms, hcasts⟩ := ih htail hs'
      exact ⟨rfl, rfl, List.forall_mem_cons.2 ⟨hcalm, hcalms⟩,
        List.forall_mem_append.2 ⟨hcast, hcasts⟩⟩

/-- The conditions decide what the bullets of a tame pattern do. -/
theorem Performance.unique {pos : Point} {rank : Float32} {cs : List Conditions} (hp : p.Tame)
    (h₁ : Performance p pos rank cs as₁) (h₂ : Performance p pos rank cs as₂) :
    as₁ = as₂ ∧ ∀ a ∈ as₁, a.Calm p := by
  induction h₁ generalizing as₂ with
  | @opens trees r r' hx =>
    generalize hnil : ([] : List Conditions) = cs at h₂
    cases h₂ with
    | @opens trees' q q' hx' =>
      have hagree := Binder.steady_children (Binder.steadies_node hp
        (b := ⟨p, rank, (Motion.rest pos).bullet⟩) rfl (maxNestDepth + 1)) [] p.topActions r q
      rw [hx, hx'] at hagree
      cases hagree with
      | ok hq => exact ⟨rfl, List.forall_mem_singleton.2 (TaskTree.calm_freshAll hq)⟩
    | frame => simp at hnil
  | @frame cs c as as' cast _ hf ih =>
    generalize hcons : cs ++ [c] = cs' at h₂
    cases h₂ with
    | opens => simp at hcons
    | frame h' hf' =>
      obtain ⟨rfl, hsingle⟩ := List.append_inj' hcons rfl
      cases hsingle
      obtain ⟨rfl, hcalm⟩ := ih h'
      obtain ⟨rfl, rfl, hcalms, hcasts⟩ := hf.unique hp hcalm hf'
      refine ⟨rfl, fun a ha => ?_⟩
      exact List.forall_mem_append.2 ⟨hcalms, hcasts⟩ a (List.mem_of_mem_filter ha)

end Barrage

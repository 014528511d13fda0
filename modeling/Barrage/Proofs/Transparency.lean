import Barrage.Proofs.Isolation
import Barrage.Proofs.Lockstep

namespace Barrage

namespace Simulation

/-- The same can be seen of both: the bullets and how they move, the frame, and what all tasks
share, with the statistics, the last fire and the random numbers that are to come. -/
structure SeenAlike (s s' : Simulation) : Prop where
  ids : s'.pool.ids = s.pool.ids
  motions : ∀ id, s'.motion? id = s.motion? id
  context : s'.context = s.context
  frame : s'.frame = s.frame

/-- A simulation within a frame, after the first bullets have had their turns. -/
def within (s : Simulation) (dt : Float32) (n : Nat) : Simulation :=
  tickFrom (dt * referenceFps) n 0 { s with frame := s.frame + 1 }

variable {move : Move} {p q : Pattern} {ρ : NodeId → NodeId → Prop} {s s' : Simulation}
  {dt : Float32} {n : Nat}

theorem Paired.seenAlike (h : Paired p q ρ s s') : s.SeenAlike s' where
  ids := h.pool.ids
  motions id := by
    have hget := h.pool.get? id
    rw [motion?, motion?, Simulation.get?, Simulation.get?]
    generalize s.pool.get? id = x at hget ⊢
    generalize s'.pool.get? id = y at hget ⊢
    cases hget with
    | none => rfl
    | some ht => exact congrArg some ht.motion
  context := h.context
  frame := h.alike.1

theorem paired_init (capacity : Nat) (seed : UInt64) (rank : Float32) (cull : Option Bounds)
    (margin : Float32) : Paired p q ρ (.init capacity seed rank cull margin)
      (.init capacity seed rank cull margin) := by
  have hserves : Arena.empty.Serves (Pool.ofCapacity capacity).occupants :=
    ⟨Arena.sound_empty, ∅, .nil⟩
  exact ⟨⟨⟨fun _ => .none, rfl⟩, rfl, rfl⟩, hserves, hserves, rfl, rfl, rfl, rfl⟩

theorem Paired.within (hr : Pattern.Recasts move p q ρ) (h : Paired p q ρ s s')
    (hf : ({ s with frame := s.frame + 1 } : Simulation).Nourishes p (dt * referenceFps) n)
    (hw : (s.within dt n).tasks.NoWrap) (hw' : (s'.within dt n).tasks.NoWrap) :
    Paired p q ρ (s.within dt n) (s'.within dt n) := by
  have hbegun : Paired p q ρ ({ s with frame := s.frame + 1 } : Simulation)
      ({ s' with frame := s'.frame + 1 } : Simulation) :=
    ⟨h.pool, h.serves, h.serves', h.context, congrArg (· + 1) h.alike.1, h.alike.2⟩
  exact hbegun.tickFrom hr hf hw hw'

theorem noWrap_within (hs : s.tasks.Sound) (hn : n ≤ s.size) (hw : (s.update dt).tasks.NoWrap) :
    (s.within dt n).tasks.NoWrap := by
  have hbegun : ({ s with frame := s.frame + 1 } : Simulation).tasks.Sound := hs
  have hstep := evolves_tickFrom_of_le hbegun (dt * referenceFps) hn 0
  exact hstep.grows.noWrap ((grows_vanishAll _).noWrap hw)

/-- A frame of both simulations. -/
theorem Paired.update (hr : Pattern.Recasts move p q ρ) (h : Paired p q ρ s s')
    (hf : ({ s with frame := s.frame + 1 } : Simulation).Nourishes p (dt * referenceFps) s.size)
    (hw : (s.update dt).tasks.NoWrap) (hw' : (s'.update dt).tasks.NoWrap) :
    Paired p q ρ (s.update dt) (s'.update dt) := by
  have hpaired := h.within hr hf (noWrap_within h.serves.1 (Nat.le_refl _) hw)
    (noWrap_within h.serves'.1 (Nat.le_of_eq h.size.symm) hw')
  unfold Simulation.update
  rw [h.size]
  exact hpaired.sweep

end Simulation

namespace HostCall

/-- The second call is the first one, or starts the second pattern in place of the first. -/
inductive Swaps (p q : Pattern) : HostCall → HostCall → Prop where
  | spawn (pos : Point) : Swaps p q (.spawn p pos) (.spawn q pos)
  | same {c : HostCall} (hc : ∀ id f, c = .edit id f → Bullet.Edits f) : Swaps p q c c

/-- Whatever is bound for the pattern in the call, it is not nested too deep. -/
def Suffices (p : Pattern) (s : Simulation) : HostCall → Prop
  | .spawn r pos => r = p → ∀ n, (s.spawn r pos).1 ≠ .error (.recursionLimit n)
  | .update dt =>
    ({ s with frame := s.frame + 1 } : Simulation).Nourishes p (dt * referenceFps) s.size
  | _ => True

/-- Whatever is bound for the pattern in a run, it is not nested too deep. -/
def SufficeAll (p : Pattern) : List HostCall → Simulation → Prop
  | [], _ => True
  | c :: calls, s => c.Suffices p s ∧ SufficeAll p calls (c.perform s)

/-- Whether the call starts nothing in vain, and no turn in it is stopped for want of levels. -/
def isFed (s : Simulation) : HostCall → Bool
  | .spawn r pos => (s.spawn r pos).1.isOk
  | .update dt => (List.range s.size).all fun i =>
    (({ s with frame := s.frame + 1 } : Simulation).turnAt? (dt * referenceFps) i).all
      fun t => !t.isStarved
  | _ => true

def areFed : List HostCall → Simulation → Bool
  | [], _ => true
  | c :: calls, s => c.isFed s && areFed calls (c.perform s)

/-- Two runs cannot be told apart: the same is seen after each call, and also within a frame, after
each bullet has had its turn. -/
def RunAlike (calls calls' : List HostCall) (s : Simulation) : Prop :=
  ∀ n, (performAll (calls.take n) s).SeenAlike (performAll (calls'.take n) s) ∧
    ∀ dt, calls[n]? = some (.update dt) → ∀ i ≤ (performAll (calls.take n) s).size,
      ((performAll (calls.take n) s).within dt i).SeenAlike
        ((performAll (calls'.take n) s).within dt i)

variable {move : Move} {p q : Pattern} {ρ : NodeId → NodeId → Prop} {s s' : Simulation}
  {c c' : HostCall} {calls calls' : List HostCall}

theorem suffices_of_isFed (h : c.isFed s = true) (p : Pattern) : c.Suffices p s := by
  cases c with
  | spawn r pos =>
    intro _ n he
    simp only [isFed, he] at h
    cases h
  | update dt =>
    intro i hi t ht _
    have hall := List.all_eq_true.1 h i (List.mem_range.2 hi)
    rw [ht] at hall
    simpa using hall
  | _ => trivial

theorem sufficeAll_of_areFed (h : areFed calls s = true) (p : Pattern) : SufficeAll p calls s := by
  induction calls generalizing s with
  | nil => trivial
  | cons c calls ih =>
    rw [areFed, Bool.and_eq_true] at h
    exact ⟨suffices_of_isFed h.1 p, ih h.2⟩

/-- Calls that differ by the pattern that they start keep simulations alike. -/
theorem Swaps.paired (hr : Pattern.Recasts move p q ρ) (hc : Swaps p q c c')
    (h : Simulation.Paired p q ρ s s') (hf : c.Suffices p s) (hw : (c.perform s).tasks.NoWrap)
    (hw' : (c'.perform s').tasks.NoWrap) :
    Simulation.Paired p q ρ (c.perform s) (c'.perform s') := by
  cases hc with
  | spawn pos => exact h.spawn (Simulation.opensAlike_recast hr) pos (.inr (hf rfl)) hw hw'
  | same hc =>
    cases c with
    | create pos direction speed => exact h.create pos direction speed
    | spawn r pos => exact h.spawn (Simulation.opensAlike_self r) pos (.inl rfl) hw hw'
    | update dt => exact h.update hr hf hw hw'
    | vanish id => exact h.vanish id
    | clear =>
      simp only [perform, Simulation.clear, h.pool.order]
      exact h.vanishAll _
    | setCapacity capacity => exact h.setCapacity capacity
    | setRank rank =>
      refine ⟨h.pool, h.serves, h.serves', ?_, h.alike⟩
      simp only [perform, Simulation.setRank, h.context]
    | setTarget target =>
      refine ⟨h.pool, h.serves, h.serves', ?_, h.alike⟩
      simp only [perform, Simulation.setTarget, h.context]
    | edit id f => exact h.modifyBullet (hc id f rfl) id
    | collect => exact ⟨h.pool, h.serves, h.serves', h.context, h.alike⟩

theorem paired_performAll (hr : Pattern.Recasts move p q ρ)
    (hc : List.Forall₂ (Swaps p q) calls calls') (h : Simulation.Paired p q ρ s s')
    (hf : SufficeAll p calls s) (hw : (performAll calls s).tasks.NoWrap)
    (hw' : (performAll calls' s').tasks.NoWrap) :
    Simulation.Paired p q ρ (performAll calls s) (performAll calls' s') := by
  induction hc generalizing s s' with
  | nil => exact h
  | @cons c c' calls calls' hswap _ ih =>
    have hstep := evolves_performAll calls (evolves_perform c s h.serves.1).sound
    have hstep' := evolves_performAll calls' (evolves_perform c' s' h.serves'.1).sound
    have hnext := hswap.paired hr h hf.1 (hstep.grows.noWrap hw) (hstep'.grows.noWrap hw')
    exact ih hnext hf.2 hw hw'

theorem performAll_append (calls more : List HostCall) (s : Simulation) :
    performAll (calls ++ more) s = performAll more (performAll calls s) :=
  List.foldl_append

theorem SufficeAll.of_append {more : List HostCall} (h : SufficeAll p (calls ++ more) s) :
    SufficeAll p calls s ∧ SufficeAll p more (performAll calls s) := by
  induction calls generalizing s with
  | nil => exact ⟨trivial, h⟩
  | cons c calls ih =>
    obtain ⟨hhead, htail⟩ := ih h.2
    exact ⟨⟨h.1, hhead⟩, htail⟩

theorem noWrap_head (hs : s.tasks.Sound) (hw : (performAll (c :: calls) s).tasks.NoWrap) :
    (c.perform s).tasks.NoWrap :=
  (evolves_performAll calls (evolves_perform c s hs).sound).grows.noWrap hw

/-- Runs that differ by the pattern that they start cannot be told apart. -/
theorem run_alike (hr : Pattern.Recasts move p q ρ) (hc : List.Forall₂ (Swaps p q) calls calls')
    (h : Simulation.Paired p q ρ s s) (hf : SufficeAll p calls s)
    (hw : (performAll calls s).tasks.NoWrap) (hw' : (performAll calls' s).tasks.NoWrap) :
    RunAlike calls calls' s := by
  intro n
  rw [← calls.take_append_drop n] at hf
  rw [← calls.take_append_drop n, performAll_append] at hw
  rw [← calls'.take_append_drop n, performAll_append] at hw'
  have hsound := (evolves_performAll (calls.take n) h.serves.1).sound
  have hsound' := (evolves_performAll (calls'.take n) h.serves.1).sound
  obtain ⟨hbefore, hafter⟩ := hf.of_append
  have hpaired := paired_performAll hr (List.forall₂_take n hc) h hbefore
    ((evolves_performAll _ hsound).grows.noWrap hw) ((evolves_performAll _ hsound').grows.noWrap hw')
  refine ⟨hpaired.seenAlike, ?_⟩
  intro dt hn i hi
  obtain ⟨hlt, hself⟩ := List.getElem?_eq_some_iff.1 hn
  have hrest := List.forall₂_drop n hc
  rw [List.drop_eq_getElem_cons hlt, hself] at hw hafter hrest
  generalize calls'.drop n = rest' at hw' hrest
  cases hrest with
  | cons hswap _ =>
    cases hswap
    have hwithin := Simulation.noWrap_within hsound hi
      (noWrap_head (c := .update dt) hsound hw)
    have hsize' : i ≤ (performAll (calls'.take n) s).size := hi.trans_eq hpaired.size.symm
    have hwithin' := Simulation.noWrap_within hsound' hsize'
      (noWrap_head (c := .update dt) hsound' hw')
    exact (hpaired.within hr (fun j hj => hafter.1 j (Nat.lt_of_lt_of_le hj hi)) hwithin
      hwithin').seenAlike

end HostCall
end Barrage

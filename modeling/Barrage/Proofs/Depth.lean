import Barrage.Proofs.Ownership
import Barrage.Proofs.Termination

namespace Barrage

namespace Arena

variable {a : Arena} {id last : TaskId} {path : List Nat} {n : Nat}

/-- No chain of live tasks, each a child of the one before, has more than `n` tasks. -/
def ChainsUpTo (a : Arena) (n : Nat) : Prop :=
  ∀ id path last, a.follow id path = some last → a.contains last = true → path.length + 1 ≤ n

theorem Within.length_path (h : a.Within n id) (hw : a.NoWrap) (hf : a.follow id path = some last)
    (hl : a.contains last = true) : path.length + 1 ≤ n := by
  induction path generalizing n id with
  | nil =>
    cases hf
    obtain ⟨task, ht⟩ := contains_iff.1 hl
    obtain ⟨m, rfl, _, _⟩ := h.of_live ht hw
    exact Nat.succ_le_succ (Nat.zero_le m)
  | cons i path ih =>
    obtain ⟨c, hc, hf⟩ := Option.bind_eq_some_iff.1 hf
    obtain ⟨task, ht, hi⟩ := child?_eq_some hc
    obtain ⟨m, rfl, _, hbelow⟩ := h.of_live ht hw
    exact Nat.succ_le_succ (ih (hbelow c (List.mem_of_getElem? hi)) hf)

theorem Bounded.chainsUpTo (h : a.Bounded) (hw : a.NoWrap) : a.ChainsUpTo (maxNestDepth + 2) := by
  intro id path last hf hl
  exact (h id (contains_of_follow hf hl)).length_path hw hf hl

end Arena

namespace Turn

variable {p : Pattern} {fuel : Nat} {job : Job} {t t' : Turn} {id : TaskId} {calls : List Call}
  {r : Except PatternError Status} {kept roots : List TaskId} {c : Call}

/-- Chains are short when the task is entered and when it is left. -/
def Call.Shallow (c : Call) : Prop :=
  c.before.tasks.ChainsUpTo (maxNestDepth + 2) ∧ c.after.tasks.ChainsUpTo (maxNestDepth + 2)

theorem Runs.shallow_self (h : Runs p fuel (.task id) t calls r t') (hs : t.tasks.Sound)
    (hb : t.tasks.Bounded) (hw : t'.tasks.NoWrap) : Call.Shallow ⟨id, t, r, t'⟩ := by
  have hw' := (h.evolves hs).grows.noWrap hw
  exact ⟨hb.chainsUpTo hw', ((h.persists hs trivial hw).bounded hb).chainsUpTo hw⟩

/-- Chains are short whenever a task is entered or left. A body that is bound for a `repeat` is
entered next, and a shot is bound when its fire is left. -/
theorem Runs.shallow (h : Runs p fuel job t calls r t') (hs : t.tasks.Sound)
    (hb : t.tasks.Bounded) (hj : job.Sized t) (hw : t'.tasks.NoWrap) (hc : c ∈ calls) :
    c.Shallow := by
  induction h with
  | exhausted =>
    rw [List.mem_singleton.1 hc]
    exact ⟨hb.chainsUpTo hw, hb.chainsUpTo hw⟩
  | stale =>
    rw [List.mem_singleton.1 hc]
    exact ⟨hb.chainsUpTo hw, hb.chainsUpTo hw⟩
  | finished =>
    rw [List.mem_singleton.1 hc]
    exact ⟨hb.chainsUpTo hw, hb.chainsUpTo hw⟩
  | @leaf fuel _ _ _ _ _ ht hf ha =>
    have hself : Runs p (fuel + 1) _ _ _ _ _ := .leaf ht hf ha
    rw [List.mem_singleton.1 hc]
    exact hself.shallow_self hs hb hw
  | @composite _ id _ _ _ _ _ ht hf hk hr ih =>
    rcases List.mem_cons.1 hc with rfl | hc
    · exact (Runs.composite ht hf hk hr).shallow_self hs hb hw
    · have hstart := persists_start id hs
      have hw' := noWrap_close (hr.evolves hstart.sound).sound hw
      exact ih hstart.sound (hstart.bounded hb) trivial hw' hc
  | «repeat» ht hf hk hn hr ih =>
    rcases List.mem_cons.1 hc with rfl | hc
    · exact (Runs.repeat ht hf hk hn hr).shallow_self hs hb hw
    · have hcount := (persists_start _ hs).bind fun h => hn.persists h (get?_start ht) hk
      have hrun := hr.evolves hcount.sound
      have hw' := noWrap_close hrun.sound hw
      have hsized left := sized_bodies hcount (hrun.grows.noWrap hw') ht hk left
      exact ih hcount.sound (hcount.bounded hb) (hsized _) hw' hc
  | done => cases hc
  | skip _ _ ih => exact ih hs hb trivial hw hc
  | halt _ _ _ _ ih => exact ih hs hb trivial hw hc
  | cut _ _ _ _ ih => exact ih hs hb trivial hw hc
  | next _ hr _ _ hs' ih ih' =>
    have hw' := (hs'.evolves (hr.evolves hs).sound).grows.noWrap hw
    rcases List.mem_append.1 hc with hc | hc
    · exact ih hs hb trivial hw' hc
    · have hrun := hr.persists hs trivial hw'
      exact ih' hrun.sound (hrun.bounded hb) trivial hw hc
  | lost => cases hc
  | bare => cases hc
  | spent => cases hc
  | hold _ _ _ _ ih => exact ih hs hb trivial hw hc
  | vacant _ _ hr _ ih =>
    exact ih hs hb trivial ((hr.evolves hs).sound.evolves_release.grows.noWrap hw) hc
  | last _ _ hr _ _ ih =>
    exact ih hs hb trivial (noWrap_countBody (hr.evolves hs).sound hw) hc
  | unbound _ _ hr _ hm ih =>
    have hrun := (hr.evolves hs).sound
    exact ih hs hb trivial (noWrap_countBody hrun (noWrap_rebind hrun hm hw)) hc
  | again ht _ hr ht' hm hs' ih ih' =>
    have hrun := (hr.evolves hs).sound
    have hbind := (evolves_countBody _ _ _ hrun).bind fun h => evolves_rebind h hm
    have hw' := (hs'.evolves (evolves_adopt _ _ hbind.sound).sound).grows.noWrap hw
    have hw₁ := noWrap_countBody hrun (noWrap_rebind hrun hm (Arena.grows_modify.noWrap hw'))
    rcases List.mem_append.1 hc with hc | hc
    · exact ih hs hb trivial hw₁ hc
    · obtain ⟨hagain, hsized, _⟩ := persists_rebound (hr.persists hs trivial hw₁) hj ht ht' hm hw'
      exact ih' hagain.sound (hagain.bounded hb) hsized hw hc

theorem RunsRoots.shallow (h : RunsRoots p kept roots t calls t') (hs : t.tasks.Sound)
    (hb : t.tasks.Bounded) (hw : t'.tasks.NoWrap) (hc : c ∈ calls) : c.Shallow := by
  induction h with
  | done => cases hc
  | fault hr =>
    have hw' := (evolves_releaseAll (hr.evolves hs).sound _).grows.noWrap hw
    exact hr.shallow hs hb trivial hw' hc
  | cut hr => exact hr.shallow hs hb trivial hw hc
  | stays hr _ _ hrest ih =>
    have hw' := (hrest.evolves (hr.evolves hs).sound).grows.noWrap hw
    rcases List.mem_append.1 hc with hc | hc
    · exact hr.shallow hs hb trivial hw' hc
    · have hrun := hr.persists hs trivial hw'
      exact ih hrun.sound (hrun.bounded hb) hw hc
  | last hr =>
    exact hr.shallow hs hb trivial ((hr.evolves hs).sound.evolves_release.grows.noWrap hw) hc
  | ends hr _ hrest ih =>
    have hrun := (hr.evolves hs).sound
    have hw' := (hrun.evolves_release.bind fun h => hrest.evolves h).grows.noWrap hw
    rcases List.mem_append.1 hc with hc | hc
    · exact hr.shallow hs hb trivial hw' hc
    · have hran := hr.persists hs trivial hw'
      apply ih hran.sound.evolves_release.sound _ hw hc
      exact hran.sound.persists_release.bounded (hran.bounded hb)

theorem Plays.shallow (h : t.Plays calls t') (hs : t.tasks.Sound) (hb : t.tasks.Bounded)
    (hw : t'.tasks.NoWrap) (hc : c ∈ calls) : c.Shallow := by
  cases h with
  | idle => cases hc
  | runs _ hr => exact hr.shallow hs hb hw hc

end Turn

namespace Simulation

variable {s : Simulation} {scale : Float32} {i n : Nat} {t : Turn}

/-- The turn to which the index loop comes at an index, if there is a bullet that has not
vanished. -/
def turnAt? (s : Simulation) (scale : Float32) (i : Nat) : Option Turn := do
  let s := tickFrom scale i 0 s
  let id ← s.pool.idAt? i
  match s.pool.take id with
  | (some b, pool) => if b.vanished then none else some ⟨b, s.tasks, pool, s.context, s.notices⟩
  | (none, _) => none

theorem tickFrom_succ {id : BulletId} (h : (tickFrom scale n i s).pool.idAt? (i + n) = some id) :
    tickFrom scale (n + 1) i s = (tickFrom scale n i s).tick scale id := by
  induction n generalizing i s with
  | zero =>
    have hi : s.pool.idAt? i = some id := h
    simp only [tickFrom, hi]
  | succ n ih =>
    rw [tickFrom] at h ⊢
    rw [tickFrom]
    cases hi : s.pool.idAt? i with
    | none =>
      simp only [hi] at h
      have hsize : s.pool.order.size ≤ i := Array.getElem?_eq_none_iff.1 hi
      obtain ⟨hlt, _⟩ := Array.getElem?_eq_some_iff.1 h
      omega
    | some k =>
      simp only [hi] at h ⊢
      rw [← Nat.add_assoc, Nat.add_right_comm] at h
      exact ih h

/-- The turn begins and ends with the tasks that are there before and after its step of the
loop. -/
theorem tasks_turnAt? (h : s.turnAt? scale i = some t) :
    t.tasks = (tickFrom scale i 0 s).tasks ∧
      t.runTasks.tasks = (tickFrom scale (i + 1) 0 s).tasks := by
  unfold turnAt? at h
  generalize hm : tickFrom scale i 0 s = m at h
  obtain ⟨id, hid, h⟩ := Option.bind_eq_some_iff.1 h
  have hat : (tickFrom scale i 0 s).pool.idAt? (0 + i) = some id := by
    rw [hm, Nat.zero_add]
    exact hid
  have hstep : tickFrom scale (i + 1) 0 s = m.tick scale id := by rw [tickFrom_succ hat, hm]
  rw [hstep, tick]
  generalize m.pool.take id = taken at h ⊢
  obtain ⟨_ | b, pool⟩ := taken
  · cases h
  · cases hv : b.vanished with
    | true => simp [hv] at h
    | false =>
      simp only [hv, Bool.false_eq_true, if_false, Option.some.injEq] at h ⊢
      subst h
      exact ⟨rfl, rfl⟩

theorem bounded_tickFrom (hs : s.tasks.Sound) (hb : s.tasks.Bounded) (n i : Nat)
    (hw : (tickFrom scale n i s).tasks.NoWrap) : (tickFrom scale n i s).tasks.Bounded :=
  (tickFromBy_eq (fun _ _ => pure .ended) (Nat.le_refl _) hs hb n i hw).2.bounded hb

theorem shallow_turnAt? {calls : List Turn.Call} {c : Turn.Call} (hs : s.tasks.Sound)
    (hb : s.tasks.Bounded) (hi : i < n) (hw : (tickFrom scale n 0 s).tasks.NoWrap)
    (ht : s.turnAt? scale i = some t) (hp : t.Plays calls t.runTasks) (hc : c ∈ calls) :
    c.Shallow := by
  obtain ⟨hbefore, hafter⟩ := tasks_turnAt? ht
  have hw' := (evolves_tickFrom_of_le hs scale hi 0).grows.noWrap hw
  have hw₀ := (evolves_tickFrom_of_le hs scale (Nat.le_of_lt hi) 0).grows.noWrap hw
  apply hp.shallow (hbefore ▸ (evolves_tickFrom hs scale i 0).sound) _ (hafter ▸ hw') hc
  exact hbefore ▸ bounded_tickFrom hs hb i 0 hw₀

end Simulation

namespace HostCall

/-- However patterns are nested and refer to each other, no chain of tasks is ever longer than the
nesting limit and two more: not between the calls of the host, and not when a task is entered or
left in a frame, hence not after a body or a shot was bound. So no frame runs tasks over more
levels than that, whatever would take over below them. -/
theorem chains_stay_short (capacity : Nat) (seed : UInt64) (rank : Float32) (cull : Option Bounds)
    (margin : Float32) (calls : List HostCall) :
    let s := performAll calls (.init capacity seed rank cull margin)
    (s.tasks.NoWrap → s.tasks.ChainsUpTo (maxNestDepth + 2)) ∧
    ∀ dt, (s.update dt).tasks.NoWrap →
      (∀ i < s.size, ∀ t,
        ({ s with frame := s.frame + 1 } : Simulation).turnAt? (dt * referenceFps) i = some t →
        (∃ calls, t.Plays calls t.runTasks) ∧
        ∀ calls, t.Plays calls t.runTasks → ∀ c ∈ calls, c.Shallow) ∧
      ∀ below : Pattern → TaskId → Run Status,
        s.updateBy (fun p => Turn.runOver p (below p) (maxNestDepth + 2)) dt = s.update dt := by
  intro s
  have hs : s.tasks.Sound := (evolves_performAll calls Arena.sound_empty).sound
  have hb (hw : s.tasks.NoWrap) : s.tasks.Bounded :=
    bounded_performAll calls Arena.sound_empty Arena.bounded_empty hw
  refine ⟨fun hw => (hb hw).chainsUpTo hw, ?_⟩
  intro dt hw
  have hbound := hb ((evolves_perform (.update dt) s hs).grows.noWrap hw)
  have hw' := (Simulation.grows_vanishAll _).noWrap hw
  have hn : maxTaskChain ≤ maxNestDepth + 2 := Nat.le_refl _
  refine ⟨?_, fun below => (Simulation.updateBy_eq below hn hs hbound hw).1⟩
  intro i hi t ht
  refine ⟨Turn.plays_runTasks t, ?_⟩
  intro calls hp c hc
  exact Simulation.shallow_turnAt? (s := { s with frame := s.frame + 1 }) hs hbound hi hw' ht hp hc

theorem spark_chains_stay_short :
    (Simulation.lit.update 0).tasks.NoWrap ∧ Simulation.lit.tasks.ChainsUpTo (maxNestDepth + 2) ∧
      ∃ t calls, ({ Simulation.lit with frame := Simulation.lit.frame + 1 } : Simulation).turnAt?
          (0 * referenceFps) 0 = some t ∧
        t.Plays calls t.runTasks ∧ ∀ c ∈ calls, c.Shallow := by
  have hw : (Simulation.lit.update 0).tasks.NoWrap := by decide +kernel
  have hw₀ : Simulation.lit.tasks.NoWrap := by decide +kernel
  have hsome : (({ Simulation.lit with frame := Simulation.lit.frame + 1 } : Simulation).turnAt?
      (0 * referenceFps) 0).isSome = true := by decide +kernel
  obtain ⟨t, ht⟩ := Option.isSome_iff_exists.1 hsome
  have hlit : performAll [.spawn .spark .zero] (.init 4 0 0 none 0) = Simulation.lit := rfl
  have h := chains_stay_short 4 0 0 none 0 [.spawn .spark .zero]
  simp only [hlit] at h
  obtain ⟨hshort, hframe⟩ := h
  obtain ⟨⟨calls, hp⟩, hall⟩ := (hframe 0 hw).1 0 (by decide +kernel) t ht
  exact ⟨hw, hshort hw₀, t, calls, ht, hp, hall calls hp⟩

end HostCall
end Barrage

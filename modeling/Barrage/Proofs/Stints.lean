import Barrage.Proofs.Entering
import Barrage.Proofs.Logging
import Barrage.Proofs.Ownership
import Barrage.Proofs.Spares
import Barrage.Proofs.Termination

namespace Barrage

namespace Arena

/-- The trees below some roots are the same, task by task. -/
structure SameBelow (a a' : Arena) (roots : List TaskId) : Prop where
  below : a'.below roots = a.below roots
  tasks : ∀ k ∈ a.below roots, a'.get? k = a.get? k

variable {a a' a'' : Arena} {cs : List TaskId} {X Y Z : Finset TaskId}

theorem SameBelow.refl (a : Arena) (cs : List TaskId) : a.SameBelow a cs := ⟨rfl, fun _ _ => rfl⟩

theorem SameBelow.trans (h₁ : a.SameBelow a' cs) (h₂ : a'.SameBelow a'' cs) :
    a.SameBelow a'' cs where
  below := h₂.below.trans h₁.below
  tasks k hk := (h₂.tasks k (h₁.below ▸ hk)).trans (h₁.tasks k hk)

theorem Replaces.sameBelow (hr : a.Replaces a' X Y) (h : a.Spans cs Z) (h' : a'.Spans cs Z)
    (hd : Disjoint X Z) : a.SameBelow a' cs where
  below := h'.below_eq.trans h.below_eq.symm
  tasks k hk := by
    rw [h.below_eq] at hk
    exact hr.kept k (h.contains hk) (Finset.disjoint_right.1 hd hk)

/-- Roots that are released leave the trees of others as they are. -/
theorem Spans.sameBelow_release (hX : a.Spans cs X) (hs : a.Sound) {ds : List TaskId}
    (hY : a.Spans ds Y) (hd : Disjoint X Y) : a.SameBelow (a.releaseAll cs) ds :=
  (hX.releaseAll hs).sameBelow hY (hY.outlive (hX.releaseAll hs) hd) hd

end Arena

/-- A bullet for which something is run has a pattern. -/
theorem Turn.runs_of_mem {t : Turn} {c : Turn.Call} (hc : c ∈ t.logTasks) :
    t.logTasks = logRoots t.bullet.program [] t.bullet.tasks t ∧
      t.runTasks = runRoots t.bullet.program [] t.bullet.tasks t := by
  unfold logTasks at hc ⊢
  unfold runTasks
  cases hp : t.bullet.pattern with
  | none =>
    rw [hp] at hc
    cases hc
  | some p =>
    rw [Bullet.program_of_some hp]
    exact ⟨rfl, rfl⟩

namespace Simulation

/-- The bullet of a handle is left as it is, and so is every task of its trees. -/
structure Untouched (s s' : Simulation) (k : BulletId) : Prop where
  get? : s'.get? k = s.get? k
  tasks : ∀ b, s.get? k = some b → s.tasks.SameBelow s'.tasks b.tasks

/-- A bullet among several that have their frames one after the other. -/
structure Stint where
  pre : List BulletId
  bullet : Bullet
  post : List BulletId

namespace Stint

/-- The simulation when the frame of the bullet comes. -/
def start (f : Stint) (scale : Float32) (s : Simulation) : Simulation := s.tickAll scale f.pre

def turn (f : Stint) (scale : Float32) (s : Simulation) : Turn := (f.start scale s).turn f.bullet

/-- The simulation after the frame of the bullet. -/
def finish (f : Stint) (scale : Float32) (s : Simulation) : Simulation :=
  (f.start scale s).tick scale f.bullet.id

/-- The frames of `ids` come to the turn of the bullet. -/
structure Within (f : Stint) (scale : Float32) (s : Simulation) (ids : List BulletId) : Prop where
  ids : ids = f.pre ++ f.bullet.id :: f.post
  found : (f.start scale s).get? f.bullet.id = some f.bullet
  flying : f.bullet.vanished = false

end Stint

variable {Q : Pattern → Prop} {s s' s'' : Simulation} {k : BulletId} {b : Bullet} {t : Turn}
  {ids : List BulletId} {calls inner outer : List Turn.Call} {c : Turn.Call} {scale : Float32}
  {f : Stint}

theorem Untouched.refl (s : Simulation) (k : BulletId) : s.Untouched s k :=
  ⟨rfl, fun _ _ => .refl _ _⟩

theorem Untouched.trans (h₁ : s.Untouched s' k) (h₂ : s'.Untouched s'' k) : s.Untouched s'' k where
  get? := h₂.get?.trans h₁.get?
  tasks b hb := (h₁.tasks b hb).trans (h₂.tasks b (h₁.get?.trans hb))

section Vanish

theorem vanish_of_live (h : s.Orderly False Q) (hb : s.get? k = some b) :
    s.vanish k = (true, { s with
      pool := (s.pool.remove k).2
      tasks := s.tasks.releaseAll b.tasks
      context := s.context.countRecycled }) := by
  have hrem : s.pool.remove k = (some b, (s.pool.remove k).2) := by
    rw [Pool.remove_of_current (h.pool.current k (h.pool.listed k b hb).1)]
    exact congrArg (·, _) hb
  unfold vanish
  rw [hrem]

theorem Orderly.untouched_vanish {id : BulletId} (h : s.Orderly False Q) (hid : id ∈ s.pool.ids)
    (hne : k ≠ id) : s.Untouched (s.vanish id).2 k where
  get? := (h.vanish hid).2.kept k (by simpa using hne)
  tasks b' hb' := by
    obtain ⟨b, hb⟩ := h.find hid
    obtain rfl : b.id = id := (h.pool.listed id b hb).2
    obtain ⟨X, Y, hX, hY, hd⟩ := h.apart hb hb' hne
    rw [vanish_of_live h hb]
    exact hX.sameBelow_release h.arena hY hd

theorem Orderly.untouched_vanishAll {gone : List BulletId} (h : s.Orderly False Q)
    (hn : gone.Nodup) (hm : ∀ id ∈ gone, id ∈ s.pool.ids) (hk : k ∉ gone) :
    s.Untouched (s.vanishAll gone) k := by
  induction gone generalizing s with
  | nil => exact .refl s k
  | cons id gone ih =>
    obtain ⟨hid, hn⟩ := List.nodup_cons.1 hn
    rw [List.mem_cons, not_or] at hk
    have hmem := hm id List.mem_cons_self
    obtain ⟨ho, hr⟩ := h.vanish hmem
    apply (h.untouched_vanish hmem hk.1).trans
    apply ih ho hn _ hk.2
    intro j hj
    rw [hr.ids]
    have hne : j ≠ id := fun he => hid (he ▸ hj)
    simpa using ⟨hm j (List.mem_cons_of_mem _ hj), hne⟩

end Vanish

section Turns

/-- What the turn of a bullet does to its tasks. -/
theorem Orderly.ends (h : s.Orderly False Q) (hb : s.get? b.id = some b)
    (hp : (s.turn b).Plays calls t) (hw : t.tasks.NoWrap) :
    ∃ X X' N shots, s.tasks.Spans b.tasks X ∧
      Turn.Ends False b.program (s.turn b) t X X' N shots ∧
      Turn.Logs False b.program b calls shots := by
  obtain ⟨X, hd, hpoised⟩ := h.poised hb
  cases hp with
  | idle => exact ⟨X, X, ∅, [], hd.spans, .refl hpoised, .nil b⟩
  | @runs p _ _ hsome hr =>
    obtain rfl : b.program = p := Bullet.program_of_some hsome
    obtain ⟨X', N, shots, he, hl⟩ := hr.outcome nofun hpoised hw
    exact ⟨X, X', N, shots, hd.spans, he, hl⟩

/-- The turn of a bullet leaves the tasks of the others as they are. -/
theorem Orderly.sameBelow_plays {b' : Bullet} (h : s.Orderly False Q) (hb : s.get? b.id = some b)
    (hp : (s.turn b).Plays calls t) (hw : t.tasks.NoWrap) (hk : s.get? k = some b')
    (hne : k ≠ b.id) : s.tasks.SameBelow t.tasks b'.tasks := by
  obtain ⟨X, X', N, shots, hX, he, _⟩ := h.ends hb hp hw
  obtain ⟨X₀, Y, hX₀, hY, hd⟩ := h.apart hb hk hne
  obtain rfl := hX₀.unique hX
  exact he.replaces.sameBelow hY (hY.apart he.replaces hd hw) hd

theorem Orderly.untouched_plays (h : s.Orderly False Q) (hb : s.get? b.id = some b)
    (hv : b.vanished = false) (hp : (s.turn b).Plays calls t) (hw : t.tasks.NoWrap)
    (hk : k ∈ s.pool.ids) (hne : k ≠ b.id) :
    s.Untouched ((s.after t).settle scale t.bullet) k := by
  obtain ⟨shots, ht⟩ : ∃ shots, Ticked False Q scale s _ b calls shots := h.plays nofun hb hv hp hw
  exact ⟨ht.others k hk hne, fun b' hb' => h.sameBelow_plays hb hp hw hb' hne⟩

/-- The frames of some bullets leave the others as they are. -/
theorem Ticks.untouched (h : Ticks scale s ids log s') (ho : s.Orderly False Q)
    (hw : s'.tasks.NoWrap) (hk : k ∈ s.pool.ids) (hn : k ∉ ids) : s.Untouched s' k := by
  induction h with
  | nil => exact .refl _ k
  | drifts hb _ hs ih =>
    rw [List.mem_cons, not_or] at hn
    have ht : Ticked False Q scale _ _ _ [] [] :=
      ho.drifts hb ((hs.evolves ho.arena).grows.noWrap hw)
    have hfirst : Untouched _ _ k := ⟨ht.others k hk hn.1, fun _ _ => .refl _ _⟩
    exact hfirst.trans (ih ht.orderly hw (ht.mem hk) hn.2)
  | plays hb hv hp hs ih =>
    rw [List.mem_cons, not_or] at hn
    have hw' := (hs.evolves (hp.evolves ho.arena).sound).grows.noWrap hw
    obtain ⟨shots, ht⟩ : ∃ shots, Ticked False Q scale _ _ _ _ shots := ho.plays nofun hb hv hp hw'
    exact (ho.untouched_plays hb hv hp hw' hk hn.1).trans (ih ht.orderly hw (ht.mem hk) hn.2)

theorem Ticks.persists (h : Ticks scale s ids log s') (hs : s.tasks.Sound)
    (hw : s'.tasks.NoWrap) : s.tasks.Persists s'.tasks := by
  induction h with
  | nil => exact hs.persists
  | drifts _ _ _ ih => exact ih hs hw
  | plays _ _ hp hrest ih =>
    have hplayed := hp.evolves hs
    have hw' := (hrest.evolves hplayed.sound).grows.noWrap hw
    exact (hp.persists hs hw').bind fun h => ih h hw

end Turns

section Stints

/-- Every task that is run is run in the turn of some bullet. -/
theorem Orderly.exists_stint (h : s.Orderly False Q) (hm : ∀ id ∈ ids, id ∈ s.pool.ids)
    (hw : (s.tickAll scale ids).tasks.NoWrap) (hlog : s.logAll scale ids = inner ++ c :: outer) :
    ∃ f : Stint, f.Within scale s ids ∧ ∃ first last,
      (f.turn scale s).logTasks = first ++ c :: last ∧
      inner = s.logAll scale f.pre ++ first ∧
      outer = last ++ (f.finish scale s).logAll scale f.post := by
  induction ids generalizing s inner with
  | nil => simp [logAll] at hlog
  | cons id ids ih =>
    obtain ⟨b, hb⟩ := h.find (hm id List.mem_cons_self)
    obtain rfl : b.id = id := (h.pool.listed id b hb).2
    rcases Turn.mem_or_split hlog with ⟨last, hhere, rfl⟩ | ⟨more, hthere, rfl⟩
    · cases hv : b.vanished with
      | true =>
        rw [logTick_drifts hb hv] at hhere
        simp at hhere
      | false =>
        rw [logTick_plays hb hv] at hhere
        exact ⟨⟨[], b, ids⟩, ⟨rfl, hb, hv⟩, inner, last, hhere, rfl, rfl⟩
    · have hw' := (evolves_tickAll (evolves_tick h.arena scale b.id).sound scale ids).grows.noWrap hw
      obtain ⟨_, _, ht, _⟩ := h.tick nofun (hm b.id List.mem_cons_self) hw'
      obtain ⟨f, hf, first, last, hc, rfl, rfl⟩ :=
        ih ht.orderly (fun k hk => ht.mem (hm k (List.mem_cons_of_mem _ hk))) hw hthere
      refine ⟨{ f with pre := b.id :: f.pre }, ⟨?_, hf.found, hf.flying⟩, first, last, hc, ?_, rfl⟩
      · rw [hf.ids]
        rfl
      · exact (List.append_assoc _ _ _).symm

theorem Stint.sound (f : Stint) (scale : Float32) (h : s.tasks.Sound) :
    (f.start scale s).tasks.Sound ∧ (f.finish scale s).tasks.Sound := by
  have hstart := (evolves_tickAll h scale f.pre).sound
  exact ⟨hstart, (evolves_tick hstart scale f.bullet.id).sound⟩

namespace Stint.Within

variable (hf : f.Within scale s ids)

include hf in
theorem tickAll : s.tickAll scale ids = (f.finish scale s).tickAll scale f.post := by
  rw [hf.ids, Simulation.tickAll, List.foldl_append]
  rfl

include hf in
theorem finish_eq : f.finish scale s =
    ((f.start scale s).after (f.turn scale s).runTasks).settle scale
      (f.turn scale s).runTasks.bullet :=
  tick_plays hf.found hf.flying

include hf in
theorem tasks_finish : (f.finish scale s).tasks = (f.turn scale s).runTasks.tasks := by
  rw [finish_eq hf]
  rfl

include hf in
theorem notMem (hn : ids.Nodup) : f.bullet.id ∉ f.pre ∧ f.bullet.id ∉ f.post := by
  rw [hf.ids] at hn
  obtain ⟨_, hpost, hdis⟩ := List.nodup_append.1 hn
  exact ⟨fun h => hdis _ h _ List.mem_cons_self rfl, (List.nodup_cons.1 hpost).1⟩

variable (ho : s.Orderly False Q) (hn : ids.Nodup) (hm : ∀ id ∈ ids, id ∈ s.pool.ids)
  (hw : (s.tickAll scale ids).tasks.NoWrap)

include hf ho hw in
theorem noWrap : (f.start scale s).tasks.NoWrap ∧ (f.finish scale s).tasks.NoWrap := by
  obtain ⟨hstart, hfinish⟩ := f.sound scale ho.arena
  rw [tickAll hf] at hw
  have hw' := (evolves_tickAll hfinish scale f.post).grows.noWrap hw
  exact ⟨(evolves_tick hstart scale f.bullet.id).grows.noWrap hw', hw'⟩

include hf ho hn hm hw in
theorem framed :
    ∃ shots, Framed False Q scale s (f.start scale s) f.pre (s.logAll scale f.pre) shots := by
  have hsub : f.pre.Sublist ids := by
    rw [hf.ids]
    exact List.sublist_append_left _ _
  have hlive (k) (hk : k ∈ f.pre) : k ∈ s.pool.ids := hm k (hsub.subset hk)
  have hw' := (noWrap hf ho hw).1
  exact (ho.ticks nofun hlive hw').framed ho nofun (hsub.nodup hn) hlive hw'

include hf ho hn hm hw in
theorem ticked : ∃ shots, Ticked False Q scale (f.start scale s) (f.finish scale s) f.bullet
    (f.turn scale s).logTasks shots := by
  obtain ⟨_, hframe⟩ := framed hf ho hn hm hw
  have hw' := (noWrap hf ho hw).2
  rw [finish_eq hf] at hw' ⊢
  exact hframe.orderly.plays nofun hf.found hf.flying (f.turn scale s).logged_tasks hw'

include hf ho hn hm hw in
/-- The frames before the turn keep everything in order and leave chains short. -/
theorem started (hb : s.tasks.Bounded) :
    (f.start scale s).Orderly False Q ∧ (f.start scale s).tasks.Bounded := by
  obtain ⟨_, hframe⟩ := framed hf ho hn hm hw
  have hw' := (noWrap hf ho hw).1
  have hlive (k) (hk : k ∈ f.pre) : k ∈ s.pool.ids := by
    apply hm
    rw [hf.ids]
    exact List.mem_append_left _ hk
  exact ⟨hframe.orderly, ((ho.ticks nofun hlive hw').persists ho.arena hw').bounded hb⟩

include hf ho hn hm hw in
/-- The bullet flies as its turn has left it, with the roots that it has left. -/
theorem flown : ∃ b', (f.finish scale s).get? f.bullet.id = some b' ∧
    b'.tasks = (f.turn scale s).runTasks.bullet.tasks ∧
    f.bullet.Flies s scale (f.turn scale s).runTasks.bullet b' := by
  obtain ⟨_, hframe⟩ := framed hf ho hn hm hw
  have hw' := (noWrap hf ho hw).2
  rw [finish_eq hf] at hw' ⊢
  obtain ⟨_, _, _, _, _, he, _⟩ :=
    hframe.orderly.ends hf.found (f.turn scale s).logged_tasks hw'
  have hid := (hframe.orderly.pool.listed _ _ hf.found).1
  have hreturns : (f.start scale s).pool.Returns _ (((f.start scale s).after
      (f.turn scale s).runTasks).flown scale (f.turn scale s).runTasks.bullet) _ :=
    returns_of_ends hid he
  have hplaced := hreturns.placed
  rw [show (((f.start scale s).after (f.turn scale s).runTasks).flown scale
    (f.turn scale s).runTasks.bullet).id = f.bullet.id from flown_id.trans he.alike.id] at hplaced
  refine ⟨_, hplaced, flown_tasks, flies_flown hframe.alike he.alike ?_⟩
  intro hv
  rw [hf.flying] at hv
  cases hv

include hf ho hn hm hw in
/-- The bullets that have their turn later are there. -/
theorem waiting : f.post.Nodup ∧ ∀ k ∈ f.post, k ∈ (f.finish scale s).pool.ids := by
  obtain ⟨_, hframe⟩ := framed hf ho hn hm hw
  obtain ⟨_, ht⟩ := ticked hf ho hn hm hw
  have hids := hf.ids
  constructor
  · rw [hids] at hn
    exact (List.nodup_cons.1 (List.nodup_append.1 hn).2.1).2
  · intro k hk
    apply ht.mem
    rw [hframe.order]
    apply List.mem_append_left
    apply hm
    rw [hids]
    exact List.mem_append_right _ (List.mem_cons_of_mem _ hk)

include hf ho hn hm hw in
theorem rest : Ticks scale (f.finish scale s) f.post ((f.finish scale s).logAll scale f.post)
    (s.tickAll scale ids) := by
  obtain ⟨_, ht⟩ := ticked hf ho hn hm hw
  obtain ⟨_, hlive⟩ := waiting hf ho hn hm hw
  rw [tickAll hf] at hw ⊢
  exact ht.orderly.ticks nofun hlive hw

include hf ho hn hm hw in
theorem framed_rest : ∃ shots, Framed False Q scale (f.finish scale s) (s.tickAll scale ids) f.post
    ((f.finish scale s).logAll scale f.post) shots := by
  obtain ⟨_, ht⟩ := ticked hf ho hn hm hw
  obtain ⟨hnodup, hlive⟩ := waiting hf ho hn hm hw
  exact (rest hf ho hn hm hw).framed ht.orderly nofun hnodup hlive hw

include hf ho hn hm hw in
/-- The later turns leave the bullet alone. -/
theorem untouched : (f.finish scale s).Untouched (s.tickAll scale ids) f.bullet.id := by
  obtain ⟨_, ht⟩ := ticked hf ho hn hm hw
  have hmem : f.bullet.id ∈ (f.finish scale s).pool.ids := by
    obtain ⟨_, b', hb', _⟩ := ht.flies
    exact (ht.orderly.pool.listed _ _ hb').1
  exact (rest hf ho hn hm hw).untouched ht.orderly hw hmem (notMem hf hn).2

include hf ho hn hm hw in
/-- No task is run for the bullet in the turns of others. -/
theorem only : ∀ c ∈ s.logAll scale f.pre ++ (f.finish scale s).logAll scale f.post,
    c.before.bullet.id ≠ f.bullet.id := by
  obtain ⟨_, hbefore⟩ := framed hf ho hn hm hw
  obtain ⟨_, hafter⟩ := framed_rest hf ho hn hm hw
  obtain ⟨hpre, hpost⟩ := notMem hf hn
  intro c hc he
  rcases List.mem_append.1 hc with hc | hc
  · obtain ⟨b, hid, _, halike, _⟩ := hbefore.logged c hc
    exact hpre (he ▸ halike.id ▸ hid)
  · obtain ⟨b, hid, _, halike, _⟩ := hafter.logged c hc
    exact hpost (he ▸ halike.id ▸ hid)

include hf ho hn hm hw in
theorem alike : ∀ c ∈ (f.turn scale s).logTasks, f.bullet.Alike c.before.bullet := by
  obtain ⟨_, ht⟩ := ticked hf ho hn hm hw
  exact ht.logs.within

end Stint.Within

end Stints

/-- No chain of tasks is too long to be run in any state that a run can reach. -/
theorem Reachable.bounded {ok : HostCall → Prop} {issued : List BulletId}
    (h : Reachable ok issued s) : s.tasks.Sound ∧ s.tasks.Bounded := by
  induction h with
  | init => exact ⟨Arena.sound_empty, Arena.bounded_empty⟩
  | step _ c _ _ hw ih =>
    obtain ⟨hs, hb⟩ := ih
    exact ⟨(HostCall.evolves_perform c _ hs).sound, HostCall.bounded_perform c hs hb hw.2⟩

end Simulation
end Barrage

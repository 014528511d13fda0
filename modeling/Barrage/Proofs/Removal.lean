import Barrage.Proofs.Atomicity
import Barrage.Proofs.Stints
import Barrage.Proofs.Vanishing

namespace Barrage

namespace Arena

/-- The trees below some roots are gone for good, and all other tasks are as they were. -/
structure Fells (a a' : Arena) (roots : List TaskId) : Prop where
  gone : ∀ k ∈ a.below roots, a'.get? k = none ∧ a'.IsDead k
  kept : ∀ k, k ∉ a.below roots → a'.get? k = a.get? k
  live : a'.live + (a.below roots).ncard = a.live

variable {a : Arena} {cs : List TaskId} {X : Finset TaskId}

theorem Spans.fells (h : a.Spans cs X) (hs : a.Sound) : a.Fells (a.releaseAll cs) cs := by
  have hrel := h.releaseAll hs
  refine ⟨?_, ?_, ?_⟩
  · intro k hk
    rw [h.below_eq] at hk
    refine ⟨get?_eq_none ?_, hrel.dead k hk (Finset.notMem_empty k)⟩
    intro hl
    rcases hrel.only k hl with hm | ⟨_, hn⟩
    · exact Finset.notMem_empty k hm
    · exact hn hk
  · intro k hk
    rw [h.below_eq] at hk
    by_cases hl : a.contains k = true
    · exact hrel.kept k hl hk
    · have hl' : ¬(a.releaseAll cs).contains k = true := by
        intro hc
        rcases hrel.only k hc with hm | ⟨hold, _⟩
        · exact Finset.notMem_empty k hm
        · exact hl hold
      rw [get?_eq_none hl, get?_eq_none hl']
  · rw [h.below_eq, Set.ncard_coe_finset]
    exact hrel.count

end Arena

namespace Turn

variable {p : Pattern} {fuel : Nat} {job : Job} {t t₁ t' : Turn} {calls : List Call} {c : Call}
  {r : Except PatternError Status} {e : PatternError} {kept roots : List TaskId}
  {X X' N : Finset TaskId} {shots : List Bullet}

section Raised

/-- A task that fails takes the whole run with it, at the state in which it failed. -/
theorem Runs.raised (h : Runs p fuel job t calls r t') (hc : c ∈ calls)
    (he : c.answer = .error e) : r = .error e ∧ t' = c.after := by
  induction h with
  | exhausted =>
    rw [List.mem_singleton.1 hc] at he ⊢
    exact ⟨he, rfl⟩
  | stale =>
    rw [List.mem_singleton.1 hc] at he ⊢
    exact ⟨he, rfl⟩
  | finished =>
    rw [List.mem_singleton.1 hc] at he ⊢
    exact ⟨he, rfl⟩
  | leaf =>
    rw [List.mem_singleton.1 hc] at he ⊢
    exact ⟨he, rfl⟩
  | composite _ _ _ _ ih =>
    rcases List.mem_cons.1 hc with rfl | hc
    · exact ⟨he, rfl⟩
    · obtain ⟨rfl, rfl⟩ := ih hc
      exact ⟨rfl, rfl⟩
  | «repeat» _ _ _ _ _ ih =>
    rcases List.mem_cons.1 hc with rfl | hc
    · exact ⟨he, rfl⟩
    · obtain ⟨rfl, rfl⟩ := ih hc
      exact ⟨rfl, rfl⟩
  | done => cases hc
  | skip _ _ ih => exact ih hc
  | halt _ _ _ _ ih => exact ih hc
  | cut _ _ _ _ ih => exact absurd (ih hc).1 nofun
  | next _ _ _ _ _ ih ih' =>
    rcases List.mem_append.1 hc with hc | hc
    · exact absurd (ih hc).1 nofun
    · exact ih' hc
  | lost => cases hc
  | bare => cases hc
  | spent => cases hc
  | hold _ _ _ _ ih => exact ih hc
  | vacant _ _ _ _ ih => exact absurd (ih hc).1 nofun
  | last _ _ _ _ _ ih => exact absurd (ih hc).1 nofun
  | unbound _ _ _ _ _ ih => exact absurd (ih hc).1 nofun
  | again _ _ _ _ _ _ ih ih' =>
    rcases List.mem_append.1 hc with hc | hc
    · exact absurd (ih hc).1 nofun
    · exact ih' hc

theorem bullet_rebind {id : TaskId} {task : Task} {room : Nat} {b : Bullet}
    {x : EStateM.Result PatternError Turn TaskId} (h : rebind p room id task b t = x) :
    (state x).bullet = t.bullet := by
  subst h
  unfold rebind bindFor
  split <;> rfl

/-- Only a vanish marks the bullet. -/
theorem Runs.unmarked (h : Runs p fuel job t calls r t') (hn : ∀ c ∈ calls, ¬c.Vanishes) :
    t'.bullet.vanished = t.bullet.vanished := by
  induction h with
  | exhausted => rfl
  | stale => rfl
  | finished => rfl
  | leaf ht hf ha =>
    rw [bullet_close]
    cases ha with
    | vanishes hk => exact absurd ⟨_, ht, hf, hk⟩ (hn _ (List.mem_singleton_self _))
    | _ => rfl
  | composite _ _ _ _ ih =>
    rw [bullet_close]
    exact ih fun c hc => hn c (List.mem_cons_of_mem _ hc)
  | «repeat» _ _ _ hc _ ih =>
    rw [bullet_close, ih fun c hc => hn c (List.mem_cons_of_mem _ hc)]
    cases hc <;> rfl
  | done => rfl
  | skip _ _ ih => exact ih hn
  | halt _ _ _ _ ih => exact ih hn
  | cut _ _ _ _ ih => exact ih hn
  | next _ _ _ _ _ ih ih' =>
    rw [ih' fun c hc => hn c (List.mem_append_right _ hc)]
    exact ih fun c hc => hn c (List.mem_append_left _ hc)
  | lost => rfl
  | bare => rfl
  | spent => rfl
  | hold _ _ _ _ ih => exact ih hn
  | vacant _ _ _ _ ih => exact ih hn
  | last _ _ _ _ _ ih => exact ih hn
  | unbound _ _ _ _ hb ih => exact (congrArg Bullet.vanished (bullet_rebind hb)).trans (ih hn)
  | again _ _ _ _ hb _ ih ih' =>
    rw [ih' fun c hc => hn c (List.mem_append_right _ hc)]
    have hbind := congrArg Bullet.vanished (bullet_rebind hb)
    exact hbind.trans (ih fun c hc => hn c (List.mem_append_left _ hc))

end Raised

section Faults

/-- A fault in the state `t₁` has ended the turn. -/
structure Faults (p : Pattern) (e : PatternError) (t t₁ t' : Turn) (X X' N : Finset TaskId)
    (shots : List Bullet) : Prop extends Fires t t₁ X X' N shots where
  alike : t.bullet.Alike t₁.bullet
  flying : t₁.bullet.vanished = false
  spans : t₁.tasks.Spans t₁.bullet.tasks X'
  result : t' = t₁.abort p t₁.bullet.tasks e

/-- What has run well before comes first. -/
theorem Faults.after {X₀ N₀ : Finset TaskId} {more : List Bullet}
    (h : Faults p e t t₁ t' X X' N shots) {t₀ : Turn} (hf : Fires t₀ t X₀ X N₀ more)
    (ha : t₀.bullet.Alike t.bullet) (hw : t₁.tasks.NoWrap) :
    Faults p e t₀ t₁ t' X₀ X' (N₀ ∪ N) (more ++ shots) where
  toFires := hf.trans h.toFires ha hw
  alike := ha.trans h.alike
  flying := h.flying
  spans := h.spans
  result := h.result

theorem Faults.noWrap (h : Faults p e t t₁ t' X X' N shots) (hw : t'.tasks.NoWrap) :
    t₁.tasks.NoWrap := by
  rw [h.result] at hw
  exact (Arena.grows_releaseAll _ _).noWrap hw

/-- The first task that fails ends the turn of its bullet. -/
theorem faults_roots (hs : Poised False p (kept ++ roots) X t) (hb : t.tasks.Bounded)
    (hv : t.bullet.vanished = false) (hw : (runRoots p kept roots t).tasks.NoWrap)
    (hc : c ∈ logRoots p kept roots t) (he : c.answer = .error e) :
    ∃ X' N shots, Faults p e t c.after (runRoots p kept roots t) X X' N shots := by
  induction roots generalizing kept t X with
  | nil => cases hc
  | cons root rest ih =>
    have hlog := logged_task p maxTaskChain root t
    cases hr : runTask p maxTaskChain root t with
    | error e' t₁ =>
      rw [runRoots_of_error hr] at hw ⊢
      rw [logRoots_of_error hr] at hc
      rw [hr] at hlog
      have hrun : Runs p maxTaskChain (.task root) t _ (.error e') t₁ := hlog
      obtain ⟨he', rfl⟩ := hrun.raised hc he
      cases he'
      have hw' := (Arena.grows_releaseAll _ _).noWrap hw
      obtain ⟨Xr, Xs, N, shots, hl, _⟩ := hs.ran hrun nofun hw'
      have hroots := hl.keeps.tasks.trans hs.roots
      refine ⟨_, N, shots, hl.toFires, hl.keeps.alike, ?_, hroots ▸ hl.spans, by rw [hroots]⟩
      -- Had a vanish been run, there would have been no fault.
      rw [hrun.unmarked, hv]
      intro d hd hvan
      obtain ⟨inner, outer, hsplit⟩ := List.append_of_mem hd
      obtain ⟨Xr, _, _, _, hstart, _⟩ := hs.starts
      have hwrap : (state (runTask p maxTaskChain root t)).tasks.NoWrap := hr ▸ hw'
      obtain ⟨_, hended, _⟩ := haltsAt p maxTaskChain root t Xr inner d outer hstart
        (hb root hstart.ready) hwrap hsplit hvan
      rw [hr] at hended
      cases hended
    | ok status t₁ =>
      have hrun := hlog.ran hr
      have hsound := (hrun.evolves hs.tasks).sound
      have hwell : c ∉ logTask p maxTaskChain root t :=
        fun hc => absurd (hrun.raised hc he).1 nofun
      by_cases hend : status = .ended
      · subst hend
        rw [runRoots_of_ended hr] at hw ⊢
        rw [logRoots_of_ended hr] at hc
        have hthere := (List.mem_append.1 hc).resolve_left hwell
        cases hv₁ : t₁.bullet.vanished with
        | true =>
          rw [hv₁, if_pos rfl] at hthere
          cases hthere
        | false =>
          simp only [hv₁, Bool.false_eq_true, if_false] at hw hthere ⊢
          have hdrop : (t₁.dismiss root (kept ++ rest)).tasks.Sound :=
            hsound.evolves_release.sound
          have hw₂ := (evolves_runRoots p kept rest hdrop).grows.noWrap hw
          have hw₁ := hsound.evolves_release.grows.noWrap hw₂
          obtain ⟨Xr', Xs, N, shots, hleaves, hroot, hothers, hd, _⟩ := hs.ran hrun nofun hw₁
          have hfirst := hs.after hleaves ⟨_, rfl⟩
          have hnext := hfirst.poised
          rw [hleaves.keeps.tasks, hs.roots] at hnext
          have hended := hfirst.trans (hnext.dismiss hroot hothers hd) hw₂
          have hbounded := (hrun.persists hs.tasks trivial hw₁).bounded hb
          obtain ⟨X', N', more, hf⟩ := ih hended.poised
            (hsound.persists_release.bounded hbounded) hv₁ hw hthere
          exact ⟨X', _, _, hf.after hended.toFires hended.alike (hf.noWrap hw)⟩
      · rw [runRoots_of_stays hr hend] at hw ⊢
        rw [logRoots_of_stays hr hend] at hc
        have hthere := (List.mem_append.1 hc).resolve_left hwell
        cases hv₁ : t₁.bullet.vanished with
        | true =>
          rw [hv₁, if_pos rfl] at hthere
          cases hthere
        | false =>
          simp only [hv₁, Bool.false_eq_true, if_false] at hw hthere ⊢
          have hw₁ := (evolves_runRoots p (kept ++ [root]) rest hsound).grows.noWrap hw
          obtain ⟨Xr', Xs, N, shots, hleaves, _⟩ := hs.ran hrun nofun hw₁
          have hfirst := hs.after hleaves ⟨_, rfl⟩
          have hnext := hfirst.poised
          rw [hleaves.keeps.tasks, hs.roots, List.append_cons] at hnext
          have hbounded := (hrun.persists hs.tasks trivial hw₁).bounded hb
          obtain ⟨X', N', more, hf⟩ := ih hnext hbounded hv₁ hw hthere
          exact ⟨X', _, _, hf.after hfirst.toFires hfirst.alike (hf.noWrap hw)⟩

theorem Poised.faults (hs : Poised False t.bullet.program t.bullet.tasks X t)
    (hb : t.tasks.Bounded) (hv : t.bullet.vanished = false) (hw : t.runTasks.tasks.NoWrap)
    (hc : c ∈ t.logTasks) (he : c.answer = .error e) :
    ∃ X' N shots, Faults t.bullet.program e t c.after t.runTasks X X' N shots := by
  obtain ⟨hlog, heq⟩ := runs_of_mem hc
  rw [hlog] at hc
  rw [heq] at hw ⊢
  exact faults_roots (List.nil_append t.bullet.tasks ▸ hs) hb hv hw hc he

end Faults

/-- A fault in the state `t` has ended the turn in `t'`. The roots of the bullet are let go with all
that is below them, and of the other bullets, those that it has just fired among them, every tree is
as it was. -/
structure Aborts (p : Pattern) (e : PatternError) (t t' : Turn) : Prop where
  flying : t.bullet.vanished = false
  rest : t' = { t with
    tasks := t'.tasks
    bullet := { t.bullet with tasks := [] }
    notices := t.notices.push (.bulletStopped p.name t.bullet.id e) }
  fells : t.tasks.Fells t'.tasks t.bullet.tasks
  others : ∀ k b, t.pool.get? k = some b → t.tasks.SameBelow t'.tasks b.tasks

end Turn

namespace Simulation

variable {Q : Pattern → Prop} {s : Simulation} {k : BulletId} {b b' : Bullet} {t t' : Turn}
  {issued : List BulletId} {ids : List BulletId} {c : Turn.Call} {e : PatternError}
  {scale dt : Float32} {f : Stint} {p : Pattern} {X X' N : Finset TaskId} {shots : List Bullet}

section Vanish

/-- The bullet is gone with its trees, and all else is as it was. -/
structure Removes (s : Simulation) (b : Bullet) (s' : Simulation) : Prop where
  rest : s' = { s with
    pool := s'.pool
    tasks := s'.tasks
    context := s.context.countRecycled }
  ids : s'.pool.ids = s.pool.ids.filter (· ≠ b.id)
  gone : s'.get? b.id = none
  fells : s.tasks.Fells s'.tasks b.tasks
  others : ∀ k, k ≠ b.id → s.Untouched s' k

theorem Orderly.removes (h : s.Orderly False Q) (hb : s.get? b.id = some b) :
    (s.vanish b.id).1 = true ∧ s.Removes b (s.vanish b.id).2 := by
  have hid := (h.pool.listed b.id b hb).1
  obtain ⟨X, hX⟩ := h.spans hb
  have heq := vanish_of_live h hb
  refine ⟨by rw [heq], ⟨by rw [heq], ?_, get?_vanish_self, ?_, ?_⟩⟩
  · rw [(h.vanish hid).2.ids]
    exact List.filter_congr fun k _ => by simp
  · rw [heq]
    exact hX.fells h.arena
  · exact fun k hk => h.untouched_vanish hid hk

end Vanish

section Abort

/-- When a task of a bullet fails, each other bullet that is there has a forest apart from its. -/
theorem Orderly.apart_fires (h : s.Orderly False Q) (hb : s.get? b.id = some b)
    (hX : s.tasks.Spans b.tasks X) (hf : Turn.Fires (s.turn b) t X X' N shots)
    (hw : t.tasks.NoWrap) (hk : t.pool.get? k = some b') :
    ∃ Y, t.tasks.Spans b'.tasks Y ∧ Disjoint X' Y := by
  have hlisted := (hf.adds.sound.listed k b' hk).1
  rw [hf.adds.ids] at hlisted
  rcases List.mem_append.1 hlisted with hold | hnew
  · have hget : (s.pool.take b.id).2.get? k = some b' :=
      (Pool.get?_eq_of_slot? (hf.adds.kept k hold)).symm.trans hk
    rw [Pool.get?_take] at hget
    split at hget
    · cases hget
    · rename_i hne
      obtain ⟨X₀, Y, hX₀, hY, hd⟩ := h.apart hb hget hne
      obtain rfl := hX₀.unique hX
      have hlive : ∀ i ∈ Y, s.tasks.contains i = true := fun i hi => hY.contains hi
      have hd' := hf.replaces.disjoint hlive hd
      exact ⟨Y, hY.apart hf.replaces hd hw, (Finset.disjoint_union_left.1 hd').1⟩
  · obtain ⟨shot, hs, rfl⟩ := List.mem_map.1 hnew
    cases (hf.adds.added shot hs).symm.trans hk
    obtain ⟨first, last, rfl⟩ := List.append_of_mem hs
    have hspans := hf.fired
    rw [List.flatMap_append, List.flatMap_cons] at hspans
    obtain ⟨_, V, _, hV, _, rfl⟩ := hspans.of_append
    obtain ⟨Y, W, hY, _, _, rfl⟩ := hV.of_append
    refine ⟨Y, hY, hf.apart.mono_right ?_⟩
    exact Finset.subset_union_left.trans Finset.subset_union_right

theorem Orderly.aborts (h : s.Orderly False Q) (hb : s.get? b.id = some b)
    (hX : s.tasks.Spans b.tasks X) (hf : Turn.Faults p e (s.turn b) t t' X X' N shots)
    (hw : t'.tasks.NoWrap) : t.Aborts p e t' := by
  have hsound := hf.replaces.sound
  refine ⟨hf.flying, by rw [hf.result]; rfl, ?_, ?_⟩
  · rw [hf.result]
    exact hf.spans.fells hsound
  · intro k b' hk
    obtain ⟨Y, hY, hd⟩ := h.apart_fires hb hX hf.toFires (hf.noWrap hw) hk
    rw [hf.result]
    exact hf.spans.sameBelow_release hsound hY hd

/-- In the frame with this log, the call `c` has failed and ended the turn of its bullet. The bullet
flies on without tasks, and the turn has left all other bullets alone. -/
structure Stops (s : Simulation) (dt : Float32) (c : Turn.Call) (e : PatternError) (f : Stint) :
    Prop where
  within : f.Within (dt * referenceFps) { s with frame := s.frame + 1 } s.pool.ids
  bullet : f.bullet.id = c.before.bullet.id
  aborts : c.after.Aborts f.bullet.program e
    (f.turn (dt * referenceFps) { s with frame := s.frame + 1 }).runTasks
  flies : ∃ b', (s.ticked dt).get? f.bullet.id = some b' ∧ b'.tasks = [] ∧
    f.bullet.Flies s (dt * referenceFps) { c.after.bullet with tasks := [] } b' ∧
    b'.vanished = s.isOutside b' ∧
    (b'.vanished = false → (s.update dt).get? f.bullet.id = some b')
  others : ∀ k ∈ (f.start (dt * referenceFps) { s with frame := s.frame + 1 }).pool.ids,
    k ≠ f.bullet.id →
    (f.start (dt * referenceFps) { s with frame := s.frame + 1 }).Untouched
      (f.finish (dt * referenceFps) { s with frame := s.frame + 1 }) k

/-- A bullet one of whose tasks fails is in its place when all have had their turn, without tasks. -/
theorem Stint.Within.stops (hf : f.Within scale s ids) (h : s.Orderly False Q)
    (hb : s.tasks.Bounded) (hn : ids.Nodup) (hm : ∀ id ∈ ids, id ∈ s.pool.ids)
    (hw : (s.tickAll scale ids).tasks.NoWrap) (hc : c ∈ (f.turn scale s).logTasks)
    (he : c.answer = .error e) :
    c.after.Aborts f.bullet.program e (f.turn scale s).runTasks ∧
      (f.turn scale s).runTasks.bullet = { c.after.bullet with tasks := [] } ∧
      ∃ b', (s.tickAll scale ids).get? f.bullet.id = some b' ∧ b'.tasks = [] ∧
        f.bullet.Flies s scale { c.after.bullet with tasks := [] } b' := by
  obtain ⟨hstart, hbounded⟩ := hf.started h hn hm hw hb
  have hw' := (hf.noWrap h hw).2
  rw [hf.tasks_finish] at hw'
  obtain ⟨X, hd, hpoised⟩ := hstart.poised hf.found
  obtain ⟨X', N, shots, hfault⟩ :=
    Turn.Poised.faults hpoised hbounded hf.flying hw' hc he
  have haborts := hstart.aborts hf.found hd.spans hfault hw'
  have hbullet : (f.turn scale s).runTasks.bullet = { c.after.bullet with tasks := [] } := by
    rw [haborts.rest]
  obtain ⟨b', hb', htasks, hflies⟩ := hf.flown h hn hm hw
  rw [hbullet] at htasks hflies
  exact ⟨haborts, hbullet, b', (hf.untouched h hn hm hw).get?.trans hb', htasks, hflies⟩

end Abort

/-- To recycle a bullet, or to stop one whose tasks have failed, leaves the others alone. -/
theorem removal_leaves_others_alone (h : Reachable (fun _ => True) issued s) :
    (∀ k b, s.get? k = some b → (s.vanish k).1 = true ∧ s.Removes b (s.vanish k).2) ∧
    ∀ dt, (s.update dt).NoWrap → ∀ c ∈ s.frameLog dt, ∀ e, c.answer = .error e →
      ∃ f, s.Stops dt c e f := by
  obtain ⟨ho, _, _⟩ := h.inOrder
  obtain ⟨_, hbounded⟩ := h.bounded
  constructor
  · intro k b hb
    obtain rfl := (ho.pool.listed k b hb).2
    exact ho.removes hb
  · intro dt hw c hc e he
    obtain ⟨heq, hw'⟩ := ho.update_eq nofun hw.2
    have hids (id) (hid : id ∈ s.pool.ids) :
        id ∈ ({ s with frame := s.frame + 1 } : Simulation).pool.ids := hid
    have hn := ho.pool.nodup
    obtain ⟨inner, outer, hlog⟩ := List.append_of_mem hc
    obtain ⟨f, hf, first, last, hcalls, _⟩ := ho.begin.exists_stint hids hw' hlog
    have hmem : c ∈ (f.turn (dt * referenceFps) { s with frame := s.frame + 1 }).logTasks := by
      rw [hcalls]
      exact List.mem_append_right _ List.mem_cons_self
    have halike := hf.alike ho.begin hn hids hw' c hmem
    obtain ⟨haborts, _, b', hb', htasks, hflies⟩ :=
      hf.stops ho.begin hbounded hn hids hw' hmem he
    have hvanished : b'.vanished = s.isOutside b' := by
      rw [hflies.vanished, show ({ c.after.bullet with tasks := [] } : Bullet).vanished = false
        from haborts.flying]
      rfl
    obtain ⟨_, hframe⟩ := ho.framed nofun hw' (ho.logged nofun hw')
    have hget : (s.ticked dt).get? f.bullet.id = some b' := hb'
    refine ⟨f, hf, halike.id.symm, haborts,
      ⟨b', hget, htasks, { hflies with }, hvanished, ?_⟩, ?_⟩
    · intro hv
      rw [heq, hframe.orderly.get?_sweep, hget]
      rw [isVanished, hget]
      exact hv
    · intro k hk hne
      obtain ⟨hstart, _⟩ := hf.started ho.begin hn hids hw' hbounded
      have hfinish := (hf.noWrap ho.begin hw').2
      rw [hf.tasks_finish] at hfinish
      rw [hf.finish_eq]
      exact hstart.untouched_plays hf.found hf.flying (Turn.logged_tasks _) hfinish hk hne

/-- A spark is recycled beside a dud, and the dud is stopped beside the spark. -/
theorem dud_is_stopped_beside_spark :
    ∃ s b, s = (HostCall.spawn .dud .zero).perform lit ∧ s.get? ⟨0, 0⟩ = some b ∧
      (s.vanish ⟨0, 0⟩).1 = true ∧ s.Removes b (s.vanish ⟨0, 0⟩).2 ∧
      ∃ c ∈ s.frameLog 0, ∃ e f, c.answer = .error e ∧ s.Stops 0 c e f := by
  let s := (HostCall.spawn .dud .zero).perform lit
  have hr : Reachable (fun _ => True) _ s :=
    .step (reachable_lit trivial) (.spawn .dud .zero) trivial trivial (by decide +kernel)
  obtain ⟨hremove, hstop⟩ := removal_leaves_others_alone hr
  have hsome : (s.get? ⟨0, 0⟩).isSome = true := by decide +kernel
  obtain ⟨b, hb⟩ := Option.isSome_iff_exists.1 hsome
  obtain ⟨htrue, hremoves⟩ := hremove ⟨0, 0⟩ b hb
  have hrun : ∃ c ∈ s.frameLog 0, c.answer.isOk = false := by decide +kernel
  obtain ⟨c, hc, hfail⟩ := hrun
  cases he : c.answer with
  | ok => simp [he, Except.isOk, Except.toBool] at hfail
  | error e =>
    obtain ⟨f, hf⟩ := hstop 0 (by decide +kernel) c hc e he
    exact ⟨s, b, rfl, hb, htrue, hremoves, c, hc, e, f, he, hf⟩

end Simulation

/-- A handle that was never given out can free a slot twice. A bullet that is stopped because its
shot cannot be bound then does not fly on: it shares the slot of the shot and is gone with it. -/
theorem HostCall.shared_slot_grounds_a_stopped_bullet :
    ¬ ∀ (calls : List HostCall) (dt : Float32) (c : Turn.Call) (e : PatternError),
      let s := performAll calls (.init 4 0 0 none 0)
      c ∈ s.frameLog dt → c.answer = .error e →
      ∃ b, (s.update dt).get? c.before.bullet.id = some b ∧ b.tasks = [] := by
  intro h
  let calls : List HostCall :=
    [.create .zero 0 0, .vanish ⟨0, 0⟩, .vanish ⟨0, 1⟩, .spawn .dud .zero]
  have hrun : ∃ c ∈ (performAll calls (.init 4 0 0 none 0)).frameLog 0, c.answer.isOk = false ∧
      (((performAll calls (.init 4 0 0 none 0)).update 0).get? c.before.bullet.id).isNone = true := by
    decide +kernel
  obtain ⟨c, hc, hfail, hnone⟩ := hrun
  cases he : c.answer with
  | ok => simp [he, Except.isOk, Except.toBool] at hfail
  | error e =>
    obtain ⟨b, hb, _⟩ := h calls 0 c e hc he
    rw [hb] at hnone
    cases hnone

end Barrage

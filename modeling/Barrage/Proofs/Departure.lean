import Barrage.Proofs.Stints
import Barrage.Proofs.Vanishing

namespace Barrage

namespace Turn

variable {g : Prop} {p : Pattern} {t t₁ t' : Turn} {X X₁ X' N₁ N' : Finset TaskId}
  {shots₁ shots' : List Bullet} {k : TaskId}

/-- Of the forest that a bullet had when things settled, what is left is in its forest. -/
theorem Ends.settled (h₁ : Ends g p t t₁ X X₁ N₁ shots₁) (h : Ends g p t t' X X' N' shots')
    (hp : t'.pool = t₁.pool) (hs : t₁.tasks.Settles t'.tasks) (hk : k ∈ X₁)
    (hl : t'.tasks.contains k = true) : k ∈ X' := by
  have hsame : shots' = shots₁ := by
    have hbullets := h.adds.bullets
    rw [hp, h₁.adds.bullets] at hbullets
    exact (List.append_cancel_left hbullets).symm
  subst hsame
  have hsub : N' ⊆ N₁ := hs.subset h₁.fired h.fired fun c hc hl =>
    h₁.fired.mem_of_live hc (hs.contains hl)
  rcases h.replaces.only k hl with hm | ⟨hc, hn⟩
  · rcases Finset.mem_union.1 hm with hm | hm
    · exact hm
    · exact absurd (hsub hm) (Finset.disjoint_left.1 h₁.apart hk)
  · rcases h₁.replaces.fresh k (Finset.mem_union_left _ hk) with hm | hnone
    · exact absurd hm hn
    · simp [Arena.contains, hnone] at hc

/-- When a vanish is executed, the turn of the bullet is over but for what is let go, and each task
that the bullet has at that time stays in its forest or is gone for good. -/
theorem Poised.departs {inner outer : List Call} {c : Call}
    (hs : Poised False t.bullet.program t.bullet.tasks X t) (hb : t.tasks.Bounded)
    (hw : t.runTasks.tasks.NoWrap) (hl : t.logTasks = inner ++ c :: outer) (hc : c.Vanishes) :
    Halts t.bullet.program inner c outer t.runTasks ∧
      ∀ k ∈ c.before.tasks.below c.before.bullet.tasks,
        k ∈ t.runTasks.tasks.below t.runTasks.bullet.tasks ∨ t.runTasks.tasks.IsDead k := by
  have hmem : c ∈ t.logTasks := hl ▸ List.mem_append_right _ List.mem_cons_self
  obtain ⟨hlog, heq⟩ := runs_of_mem hmem
  rw [hlog] at hl hmem
  rw [heq] at hw ⊢
  have hhalt := halts_roots (List.nil_append t.bullet.tasks ▸ hs) hb hw hl hc
  have hrun := logged_roots t.bullet.program [] t.bullet.tasks t
  obtain ⟨X', N, shots, he, _⟩ := hrun.outcome nofun hs hw
  obtain ⟨Xc, Nc, shotsc, hec⟩ := hrun.entered nofun hs hw hmem
  generalize runRoots t.bullet.program [] t.bullet.tasks t = t' at hhalt he ⊢
  have hpool : t'.pool = c.before.pool := by rw [hhalt.winds.pool, hhalt.marks]
  have hsettles := hhalt.settles.trans hhalt.winds.tasks
  refine ⟨hhalt, ?_⟩
  intro k hk
  rw [hec.poised.spans.below_eq] at hk
  by_cases hlive : t'.tasks.contains k = true
  · rw [he.poised.spans.below_eq]
    exact .inl (hec.settled he hpool hsettles hk hlive)
  · exact .inr (hsettles.gone k (hec.poised.spans.contains hk) hlive)

end Turn

namespace Simulation

variable {Q : Pattern → Prop} {s : Simulation} {k : BulletId} {b : Bullet} {i : TaskId}
  {issued : List BulletId} {inner outer : List Turn.Call} {c : Turn.Call} {dt : Float32}

section Sweep

/-- A bullet that is recycled is gone for good, and so are its tasks. -/
theorem Orderly.gone_vanish (h : s.Orderly False Q) (hb : s.get? k = some b)
    (hi : i ∈ s.tasks.below b.tasks) : (s.vanish k).2.tasks.IsDead i := by
  obtain ⟨X, hX⟩ := h.spans hb
  rw [hX.below_eq] at hi
  rw [vanish_of_live h hb]
  exact (hX.releaseAll h.arena).dead i hi (Finset.notMem_empty i)

theorem Orderly.gone_vanishAll {ids : List BulletId} (h : s.Orderly False Q) (hn : ids.Nodup)
    (hm : ∀ id ∈ ids, id ∈ s.pool.ids) (hk : k ∈ ids) (hb : s.get? k = some b)
    (hi : i ∈ s.tasks.below b.tasks) : (s.vanishAll ids).tasks.IsDead i := by
  induction ids generalizing s with
  | nil => cases hk
  | cons id ids ih =>
    by_cases he : k = id
    · subst he
      exact (h.gone_vanish hb hi).grows (grows_vanishAll ids)
    · obtain ⟨hid, hn⟩ := List.nodup_cons.1 hn
      have hmem := hm id List.mem_cons_self
      obtain ⟨ho, hr⟩ := h.vanish hmem
      have hun := h.untouched_vanish hmem he
      apply ih ho hn _ ((List.mem_cons.1 hk).resolve_left he) (hun.get?.trans hb)
      · rw [(hun.tasks b hb).below]
        exact hi
      · intro j hj
        rw [hr.ids]
        have hne : j ≠ id := fun he => hid (he ▸ hj)
        simpa using ⟨hm j (List.mem_cons_of_mem _ hj), hne⟩

/-- The sweep takes a bullet that is marked away for good, with all its tasks. -/
theorem Orderly.gone_sweep (h : s.Orderly False Q) (hb : s.get? k = some b)
    (hv : b.vanished = true) :
    k ∉ s.sweep.pool.ids ∧ s.sweep.pool.store.IsDead k ∧
      ∀ i ∈ s.tasks.below b.tasks, s.sweep.tasks.IsDead i := by
  have hmark : s.isVanished k = true := by
    rw [isVanished, hb]
    exact hv
  have hout : k ∉ s.sweep.pool.ids := by
    rw [h.sweep_ids, List.mem_filter]
    simp [hmark]
  have hsub := h.vanished_sublist
  refine ⟨hout, ?_, ?_⟩
  · exact (h.sweep.2.advances.gone k (h.pool.listed k b hb).1).resolve_left hout
  · intro i hi
    exact h.gone_vanishAll (hsub.nodup h.pool.nodup) (fun j hj => hsub.subset hj)
      ((mem_vanished h.pool).2 hmark) hb hi

end Sweep

section Turns

variable {ids : List BulletId} {scale : Float32} {f : Stint} {first last : List Turn.Call}

/-- A bullet in whose turn a vanish is executed waits for the sweep, with all that it had then. -/
theorem Stint.Within.departs (hf : f.Within scale s ids) (h : s.Orderly False Q)
    (hb : s.tasks.Bounded) (hn : ids.Nodup) (hm : ∀ id ∈ ids, id ∈ s.pool.ids)
    (hw : (s.tickAll scale ids).tasks.NoWrap)
    (hl : (f.turn scale s).logTasks = first ++ c :: last) (hc : c.Vanishes) :
    Turn.Halts f.bullet.program first c last (f.turn scale s).runTasks ∧
      ∃ b', (s.tickAll scale ids).get? f.bullet.id = some b' ∧ b'.vanished = true ∧
        ∀ k ∈ c.before.tasks.below c.before.bullet.tasks,
          k ∈ (s.tickAll scale ids).tasks.below b'.tasks ∨ (s.tickAll scale ids).tasks.IsDead k := by
  obtain ⟨hstart, hbounded⟩ := hf.started h hn hm hw hb
  have hw' := (hf.noWrap h hw).2
  rw [hf.tasks_finish] at hw'
  obtain ⟨X, _, hpoised⟩ := hstart.poised hf.found
  obtain ⟨hhalt, hstay⟩ := Turn.Poised.departs hpoised hbounded hw' hl hc
  obtain ⟨b', hb', htasks, hflies⟩ := hf.flown h hn hm hw
  have hlater := hf.untouched h hn hm hw
  refine ⟨hhalt, b', hlater.get?.trans hb', by rw [hflies.vanished, hhalt.over]; rfl, ?_⟩
  intro k hk
  rcases hstay k hk with hbelow | hdead
  · left
    rw [(hlater.tasks b' hb').below, hf.tasks_finish, htasks]
    exact hbelow
  · right
    rw [← hf.tasks_finish] at hdead
    exact hdead.grows ((hf.rest h hn hm hw).evolves (f.sound scale h.arena).2).grows

end Turns

/-- In the frame with this log, the call `c` was the last that its bullet made: the bullet had its
turn, which `c` ended, and every call around `c` has ended with it. The bullet is gone after the
frame, and so is every task that stood below its roots when it vanished. -/
structure Departs (s : Simulation) (dt : Float32) (inner : List Turn.Call) (c : Turn.Call)
    (outer : List Turn.Call) : Prop where
  answer : c.answer = .ok .ended
  marks : c.after = { c.before with
    bullet := c.before.bullet.vanish
    tasks := c.after.tasks }
  last : ∀ d ∈ outer, d.before.bullet.id ≠ c.before.bullet.id
  turn : ∃ f : Stint, f.Within (dt * referenceFps) { s with frame := s.frame + 1 } s.pool.ids ∧
    f.bullet.id = c.before.bullet.id ∧
    c.after.Winds (f.turn (dt * referenceFps) { s with frame := s.frame + 1 }).runTasks
  around : ∀ pre d post, inner = pre ++ d :: post → d.before.bullet.id = c.before.bullet.id →
    (∃ within rest, post = within ++ rest ∧ d.Ran c.before.bullet.program within) ∨
      d.Ran c.before.bullet.program (post ++ [c]) ∧ d.answer = .ok .ended
  gone : c.before.bullet.id ∉ (s.update dt).pool.ids ∧
    (s.update dt).pool.store.IsDead c.before.bullet.id ∧
    (s.update dt).get? c.before.bullet.id = none
  released : ∀ k ∈ c.before.tasks.below c.before.bullet.tasks,
    (s.update dt).tasks.get? k = none

/-- A vanish is the last thing that a bullet does. -/
theorem vanish_is_last (h : Reachable (fun _ => True) issued s) (dt : Float32)
    (hw : (s.update dt).NoWrap) (hlog : s.frameLog dt = inner ++ c :: outer) (hc : c.Vanishes) :
    s.Departs dt inner c outer := by
  obtain ⟨ho, _, _⟩ := h.inOrder
  obtain ⟨_, hbounded⟩ := h.bounded
  obtain ⟨heq, hw'⟩ := ho.update_eq nofun hw.2
  have hids (id) (hid : id ∈ s.pool.ids) :
      id ∈ ({ s with frame := s.frame + 1 } : Simulation).pool.ids := hid
  have hn := ho.pool.nodup
  obtain ⟨f, hf, first, last, hcalls, rfl, rfl⟩ := ho.begin.exists_stint hids hw' hlog
  obtain ⟨hhalt, b', hget, hv, hstay⟩ := hf.departs ho.begin hbounded hn hids hw' hcalls hc
  have halike : f.bullet.Alike c.before.bullet := by
    apply hf.alike ho.begin hn hids hw'
    rw [hcalls]
    exact List.mem_append_right _ List.mem_cons_self
  have honly := hf.only ho.begin hn hids hw'
  obtain ⟨_, hframe⟩ := ho.framed nofun hw' (ho.logged nofun hw')
  obtain ⟨hout, hdead, hreleased⟩ := hframe.orderly.gone_sweep hget hv
  rw [← halike.id, ← heq] at hout hdead
  rw [← heq] at hreleased
  refine ⟨hhalt.ended, hhalt.marks, ?_, ⟨f, hf, halike.id.symm, hhalt.winds⟩, ?_,
    ⟨hout, hdead, Store.IsDead.get? hdead hw.1⟩, ?_⟩
  · intro d hd
    rw [hhalt.last, List.nil_append] at hd
    rw [halike.id]
    exact honly d (List.mem_append_right _ hd)
  · intro pre d post hd hsame
    rw [halike.id] at hsame
    rw [Bullet.program, halike.pattern]
    rcases Turn.mem_or_split hd with ⟨_, hbefore, _⟩ | ⟨_, hfirst, _⟩
    · refine absurd hsame (honly d (List.mem_append_left _ ?_))
      rw [hbefore]
      exact List.mem_append_right _ List.mem_cons_self
    · exact hhalt.around _ d post hfirst
  · intro k hk
    refine Arena.IsDead.get? ?_ hw.2
    rcases hstay k hk with hbelow | hgone
    · exact hreleased k hbelow
    · rw [heq]
      exact hgone.grows (grows_vanishAll _)

/-- The bullet that a spark has fired vanishes in the next frame. -/
theorem spark_vanish_is_last :
    ∃ inner c outer, (lit.update 0).frameLog 0 = inner ++ c :: outer ∧ c.Vanishes ∧
      (lit.update 0).Departs 0 inner c outer := by
  have hw : (lit.update 0).NoWrap := by decide +kernel
  have hw' : ((lit.update 0).update 0).NoWrap := by decide +kernel
  have hr : Reachable (fun _ => True) _ (lit.update 0) :=
    .step (reachable_lit trivial) (.update 0) trivial trivial hw
  have hrun : ∃ c ∈ (lit.update 0).frameLog 0, c.Vanishes := by decide +kernel
  obtain ⟨c, hmem, hc⟩ := hrun
  obtain ⟨inner, outer, hlog⟩ := List.append_of_mem hmem
  exact ⟨inner, c, outer, hlog, hc, vanish_is_last hr 0 hw' hlog hc⟩

end Simulation

/-- A pattern with two top actions that each vanish. -/
def Pattern.twins : Pattern :=
  let p := ((ofName "twins").addNode root .action).2
  let p := (p.setLabel ⟨1⟩ "top1").1
  let p := (p.addNode ⟨1⟩ .vanish).2
  let p := (p.addNode root .action).2
  let p := (p.setLabel ⟨3⟩ "top2").1
  (p.addNode ⟨3⟩ .vanish).2

/-- A run that recycles a handle that was never given out, and then starts two patterns. -/
def HostCall.twinsRun : List HostCall :=
  [.create .zero 0 0, .create .zero 0 0, .vanish ⟨0, 0⟩, .vanish ⟨1, 0⟩, .vanish ⟨0, 1⟩,
    .spawn .twins .zero, .spawn .spark .zero]

/-- A handle that was never given out can free a slot twice. A bullet that is fired after another
one has vanished then takes the slot of that one before it is recycled, and is found under its
handle. -/
theorem HostCall.shared_slot_outlives_a_vanish :
    ¬ ∀ (calls : List HostCall) (dt : Float32) (inner outer : List Turn.Call) (c : Turn.Call),
      let s := performAll calls (.init 4 0 0 none 0)
      s.frameLog dt = inner ++ c :: outer → c.Vanishes →
      (s.update dt).get? c.before.bullet.id = none := by
  intro h
  have hrun : ∃ c ∈ (performAll twinsRun (.init 4 0 0 none 0)).frameLog 0, c.Vanishes ∧
      (((performAll twinsRun (.init 4 0 0 none 0)).update 0).get? c.before.bullet.id).isSome =
        true := by
    decide +kernel
  obtain ⟨c, hmem, hc, hsome⟩ := hrun
  obtain ⟨inner, outer, hlog⟩ := List.append_of_mem hmem
  rw [h twinsRun 0 inner outer c hlog hc] at hsome
  cases hsome

end Barrage

import Barrage.Proofs.Firing
import Barrage.Proofs.PoolHistory

namespace Barrage

/-- Bullets are removed one after the other, and all others are left alone. -/
theorem Pool.Sound.removeAll {p : Pool} {gone : List BulletId} (hs : p.Sound) (hn : gone.Nodup)
    (hm : ∀ id ∈ gone, id ∈ p.ids) :
    (gone.foldl (fun p id => (p.remove id).2) p).ids = p.ids.filter (· ∉ gone) ∧
      ∀ k ∉ gone, (gone.foldl (fun p id => (p.remove id).2) p).get? k = p.get? k := by
  induction gone generalizing p with
  | nil => exact ⟨by simp, fun _ _ => rfl⟩
  | cons id gone ih =>
    obtain ⟨hid, hn⟩ := List.nodup_cons.1 hn
    have hids := hs.ids_remove (hm id List.mem_cons_self)
    obtain ⟨hl, hget⟩ := ih (hs.remove (hm id List.mem_cons_self)) hn fun k hk => by
      rw [hids]
      simpa using ⟨hm k (List.mem_cons_of_mem _ hk), ne_of_mem_of_not_mem hk hid⟩
    constructor
    · rw [List.foldl_cons, hl, hids, List.filter_filter]
      exact List.filter_congr fun k _ => by simp [bne, BEq.beq, Bool.and_comm]
    · intro k hk
      rw [List.mem_cons, not_or] at hk
      rw [List.foldl_cons, hget k hk.2, Pool.get?_remove, if_neg hk.1]

theorem forall₂_getLast? {α β : Type} {R : α → β → Prop} {xs : List α} {ys : List β} {y : β}
    (h : List.Forall₂ R xs ys) (hy : ys.getLast? = some y) : ∃ x, xs.getLast? = some x ∧ R x y := by
  have hr := List.forall₂_reverse_iff.2 h
  simp only [← List.head?_reverse] at hy ⊢
  generalize xs.reverse = us, ys.reverse = vs at hr hy
  cases hr with
  | nil => cases hy
  | cons hxy _ =>
    cases hy
    exact ⟨_, rfl, hxy⟩

namespace Simulation

section Log

/-- The bullets that are fired in the frame of one bullet. -/
def firedInTick (s : Simulation) (id : BulletId) : List Firing :=
  match s.pool.take id with
  | (none, _) => []
  | (some b, pool) =>
    if b.vanished then [] else Turn.firings ⟨b, s.tasks, pool, s.context, s.notices⟩

def firedFrom (scale : Float32) : (count i : Nat) → Simulation → List Firing
  | 0, _, _ => []
  | count + 1, i, s =>
    match s.pool.idAt? i with
    | none => []
    | some id => s.firedInTick id ++ firedFrom scale count (i + 1) (s.tick scale id)

/-- The bullets that are fired in a frame, in order. -/
def firings (s : Simulation) (dt : Float32) : List Firing :=
  firedFrom (dt * referenceFps) s.size 0 { s with frame := s.frame + 1 }

end Log

variable {s : Simulation} {dt : Float32} {id : BulletId} {shots : List Bullet}
  {old : List BulletId}

section Records

theorem records_vanish (s : Simulation) (id : BulletId) :
    s.context.Records (s.vanish id).2.context [] := by
  unfold vanish
  split
  · exact .refl _
  · exact .still rfl rfl

theorem records_vanishAll (s : Simulation) (ids : List BulletId) :
    s.context.Records (s.vanishAll ids).context [] := by
  induction ids generalizing s with
  | nil => exact .refl _
  | cons id ids ih => exact (records_vanish s id).trans (ih _)

theorem records_evict (excess : Nat) (s : Simulation) :
    s.context.Records (evict excess s).context [] := by
  induction excess generalizing s with
  | zero => exact .refl _
  | succ excess ih =>
    rw [evict]
    split
    · exact (records_vanish s _).trans (ih _)
    · exact .refl _

theorem records_spawn (s : Simulation) (p : Pattern) (pos : Point) :
    s.context.Records (s.spawn p pos).2.context [] := by
  unfold spawn
  split
  · exact .refl _
  · split
    · exact .still rfl rfl
    · simp only [activate]
      split <;> exact .still rfl rfl

theorem records_create (s : Simulation) (pos : Point) (direction speed : Float32) :
    s.context.Records (s.create pos direction speed).2.context [] := by
  unfold create
  split <;> exact .refl _

theorem records_tick (s : Simulation) (scale : Float32) (id : BulletId) :
    s.context.Records (s.tick scale id).context (s.firedInTick id) := by
  unfold tick firedInTick
  rcases s.pool.take id with ⟨_ | b, pool⟩
  · exact .refl _
  · simp only
    cases b.vanished with
    | true => exact .refl _
    | false => exact (Turn.volley_runTasks ⟨b, s.tasks, pool, s.context, s.notices⟩).toRecords

theorem records_tickFrom (scale : Float32) (count i : Nat) (s : Simulation) :
    s.context.Records (tickFrom scale count i s).context (firedFrom scale count i s) := by
  induction count generalizing i s with
  | zero => exact .refl _
  | succ count ih =>
    rw [tickFrom, firedFrom]
    cases s.pool.idAt? i with
    | none => exact .refl _
    | some id => exact (records_tick s scale id).trans (ih _ _)

theorem records_update (s : Simulation) (dt : Float32) :
    s.context.Records (s.update dt).context (s.firings dt) := by
  have h := records_tickFrom (dt * referenceFps) s.size 0 { s with frame := s.frame + 1 }
  rw [firings, ← List.append_nil (firedFrom _ _ _ _)]
  exact h.trans (records_vanishAll _ _)

end Records

section Last

/-- The bullets fired in a frame so far are listed after the old ones, just as they left. -/
structure Launches (old : List BulletId) (shots : List Bullet) (p : Pool) : Prop where
  sound : p.Sound
  seated : p.Seated
  ids : p.ids = old ++ shots.map Bullet.id
  there : ∀ shot ∈ shots, p.get? shot.id = some shot
  fresh : ∀ shot ∈ shots, shot.vanished = false

/-- The frame of a bullet puts it back and adds the bullets that it fires. -/
theorem returns_tick (scale : Float32) (hs : s.pool.Sound) (hp : s.pool.Seated)
    (hid : id ∈ s.pool.ids) :
    ∃ b shots, s.pool.Returns (s.tick scale id).pool b shots ∧ b.id = id ∧
      List.Forall₂ (fun shot f => shot.FliesAs f.resolved) shots (s.firedInTick id) ∧
      ∀ shot ∈ shots, shot.vanished = false := by
  obtain ⟨b, hb⟩ := hp id hid
  obtain ⟨_, rfl⟩ := hs.listed id b hb
  have htake : s.pool.take b.id = (some b, (s.pool.take b.id).2) := congrArg (·, _) hb
  have settle (t : Turn) (shots : List Bullet) (hbullet : t.bullet.id = b.id)
      (ha : (s.pool.take b.id).2.Adds t.pool shots) :
      s.pool.Returns ((s.after t).settle scale t.bullet).pool ((s.after t).flown scale t.bullet)
        shots ∧ ((s.after t).flown scale t.bullet).id = b.id := by
    have hself : ((s.after t).flown scale t.bullet).id = b.id := flown_id.trans hbullet
    refine ⟨?_, hself⟩
    have ha' : (s.pool.take ((s.after t).flown scale t.bullet).id).2.Adds t.pool shots := by
      rw [hself]
      exact ha
    exact ha'.returns (hself ▸ hid)
  unfold tick firedInTick
  rw [htake]
  cases hv : b.vanished with
  | true =>
    simp only [hv, if_true]
    obtain ⟨hr, hself⟩ := settle (s.turn b) [] rfl (.refl hs.take)
    exact ⟨_, [], hr, hself, .nil, nofun⟩
  | false =>
    simp only [hv, Bool.false_eq_true, if_false]
    have h := Turn.volley_runTasks (s.turn b)
    obtain ⟨shots, ha, hf, hn⟩ := h.shots hs.take
    obtain ⟨hr, hself⟩ := settle (s.turn b).runTasks shots h.bullet ha
    exact ⟨_, shots, hr, hself, hf, hn⟩

theorem Launches.tick (scale : Float32) (h : Launches old shots s.pool) (hid : id ∈ old) :
    ∃ more, Launches old (shots ++ more) (s.tick scale id).pool ∧
      List.Forall₂ (fun shot f => shot.FliesAs f.resolved) more (s.firedInTick id) := by
  have hmem : id ∈ s.pool.ids := by
    rw [h.ids]
    exact List.mem_append_left _ hid
  obtain ⟨b, more, hr, rfl, hf, hv⟩ := returns_tick scale h.sound h.seated hmem
  refine ⟨more, ⟨hr.sound, hr.seated h.seated, ?_, ?_, ?_⟩, hf⟩
  · rw [hr.ids, h.ids, List.map_append, List.append_assoc]
  · intro shot hs
    rcases List.mem_append.1 hs with hs | hs
    · have hnodup := h.sound.nodup
      rw [h.ids] at hnodup
      have hin : shot.id ∈ shots.map Bullet.id := List.mem_map_of_mem hs
      have hne : shot.id ≠ b.id := fun he =>
        (List.nodup_append.1 hnodup).2.2 _ hid _ hin he.symm
      rw [hr.others _ (by rw [h.ids]; exact List.mem_append_right _ hin) hne]
      exact h.there shot hs
    · exact hr.added shot hs
  · intro shot hs
    exact (List.mem_append.1 hs).elim (h.fresh shot) (hv shot)

theorem Launches.tickFrom {count i : Nat} (scale : Float32) (h : Launches old shots s.pool)
    (hi : i + count ≤ old.length) :
    ∃ more, Launches old (shots ++ more) (tickFrom scale count i s).pool ∧
      List.Forall₂ (fun shot f => shot.FliesAs f.resolved) more (firedFrom scale count i s) := by
  induction count generalizing i s shots with
  | zero => exact ⟨[], by simpa [Simulation.tickFrom] using h, .nil⟩
  | succ count ih =>
    have hlt : i < old.length := by omega
    have hat : s.pool.idAt? i = some old[i] := by
      rw [Pool.idAt?, ← Array.getElem?_toList, show s.pool.order.toList = _ from h.ids,
        List.getElem?_append_left hlt, List.getElem?_eq_getElem hlt]
    rw [Simulation.tickFrom, firedFrom, hat]
    obtain ⟨more, hl, hf⟩ := h.tick scale (List.getElem_mem hlt)
    obtain ⟨next, hl', hf'⟩ := ih (i := i + 1) hl (by omega)
    exact ⟨more ++ next, by simpa using hl', List.rel_append hf hf'⟩

theorem pool_vanishAll (s : Simulation) (ids : List BulletId) :
    (s.vanishAll ids).pool = ids.foldl (fun p id => (p.remove id).2) s.pool := by
  induction ids generalizing s with
  | nil => rfl
  | cons id ids ih => rw [List.foldl_cons, ← Pool.pool_vanish, ← ih]; rfl

/-- The last bullet that was fired in a frame survives the sweep, after all others. -/
theorem Launches.sweep {shot : Bullet} (h : Launches old shots s.pool)
    (hl : shots.getLast? = some shot) :
    s.sweep.pool.ids.getLast? = some shot.id ∧ s.sweep.get? shot.id = some shot := by
  have hm : shot ∈ shots := List.mem_of_getLast? hl
  have hsub : ((s.bullets.filter Bullet.vanished).map Bullet.id).Sublist s.pool.ids := by
    rw [← h.sound.bullets_map_id h.seated]
    exact List.filter_sublist.map Bullet.id
  have hout : shot.id ∉ (s.bullets.filter Bullet.vanished).map Bullet.id := by
    rw [mem_vanished h.sound, isVanished, show s.get? shot.id = _ from h.there shot hm]
    simpa using h.fresh shot hm
  obtain ⟨hids, hget⟩ := h.sound.removeAll (hsub.nodup h.sound.nodup) fun k hk => hsub.subset hk
  rw [← pool_vanishAll] at hids hget
  have hself : [shot.id].filter (· ∉ (s.bullets.filter Bullet.vanished).map Bullet.id) =
      [shot.id] := List.filter_cons_of_pos (decide_eq_true hout)
  refine ⟨?_, (hget _ hout).trans (h.there shot hm)⟩
  obtain ⟨pre, rfl⟩ := List.getLast?_eq_some_iff.1 hl
  rw [Simulation.sweep, hids, h.ids, List.map_append, ← List.append_assoc, List.filter_append,
    List.map_singleton, hself, List.getLast?_concat]

/-- Where no two bullets share a slot, all bullets that are fired in a frame come to stand. -/
theorem launches_tickFrom (hs : s.pool.Sound) (hp : s.pool.Seated) (dt : Float32) :
    ∃ shots, Launches s.pool.ids shots
        (tickFrom (dt * referenceFps) s.size 0 { s with frame := s.frame + 1 }).pool ∧
      List.Forall₂ (fun shot f => shot.FliesAs f.resolved) shots (s.firings dt) := by
  have hstart : Launches s.pool.ids [] ({ s with frame := s.frame + 1 } : Simulation).pool :=
    ⟨hs, hp, by simp, nofun, nofun⟩
  have hcount : 0 + s.size ≤ s.pool.ids.length := by
    rw [Nat.zero_add]
    exact Nat.le_refl s.size
  exact hstart.tickFrom (dt * referenceFps) hcount

/-- Where no two bullets share a slot, the last bullet after a frame with fires is the one fired
last, as it left. -/
theorem last_of_firings (hs : s.pool.Sound) (hp : s.pool.Seated) (hf : s.firings dt ≠ []) :
    ∃ id b, (s.update dt).pool.ids.getLast? = some id ∧ (s.update dt).get? id = some b ∧
      b.FliesAs (s.update dt).context.sequence := by
  obtain ⟨shots, hl, hflies⟩ := launches_tickFrom hs hp dt
  obtain ⟨f, hlast⟩ := Option.ne_none_iff_exists'.1 fun hn => hf (List.getLast?_eq_none_iff.1 hn)
  obtain ⟨shot, hshot, hq⟩ := forall₂_getLast? hflies hlast
  have hseq : (s.update dt).context.sequence = f.resolved := by
    rw [(records_update s dt).sequence, SequenceState.after, hlast]
    rfl
  obtain ⟨hids, hget⟩ := hl.sweep hshot
  exact ⟨shot.id, shot, hids, hget, hseq ▸ hq⟩

end Last

end Simulation

namespace HostCall

/-- The bullets that are fired while a call is carried out. -/
def firings : HostCall → Simulation → List Firing
  | .update dt, s => s.firings dt
  | _, _ => []

def performAll (calls : List HostCall) (s : Simulation) : Simulation :=
  calls.foldl (fun s c => c.perform s) s

/-- The bullets that are fired in a run, in order. -/
def firedIn : List HostCall → Simulation → List Firing
  | [], _ => []
  | c :: calls, s => c.firings s ++ firedIn calls (c.perform s)

variable {s : Simulation} {c : HostCall}

theorem records_perform (c : HostCall) (s : Simulation) :
    s.context.Records (c.perform s).context (c.firings s) := by
  cases c with
  | create pos direction speed => exact s.records_create pos direction speed
  | spawn p pos => exact s.records_spawn p pos
  | update dt => exact s.records_update dt
  | vanish id => exact s.records_vanish id
  | clear => exact s.records_vanishAll _
  | setCapacity capacity =>
    exact Simulation.records_evict _ { s with pool := s.pool.setCapacity capacity }
  | setRank rank => exact .still rfl rfl
  | setTarget target => exact .still rfl rfl
  | edit id f => exact .refl _
  | collect => exact .refl _

theorem records_performAll (calls : List HostCall) (s : Simulation) :
    s.context.Records (performAll calls s).context (firedIn calls s) := by
  induction calls generalizing s with
  | nil => exact .refl _
  | cons c calls ih => exact (c.records_perform s).trans (ih _)

end HostCall

/-- A direction in sequence mode is counted from that of the last fire. -/
theorem Firing.direction_of_sequence {f : Firing}
    (h : Turn.sourceMode f.pattern f.fire.direction = some .sequence) :
    ∃ v, f.directionValue = some v ∧
      f.resolved.lastDirection = f.turn.context.sequence.lastDirection + v := by
  cases hd : f.fire.direction with
  | none =>
    rw [hd] at h
    cases h
  | some source =>
    cases hv : f.directionValue with
    | none => simp [directionValue, hd, value] at hv
    | some v => exact ⟨v, rfl, by rw [resolved, h, hv]; rfl⟩

theorem Firing.speed_of_sequence {f : Firing}
    (h : Turn.sourceMode f.pattern f.fire.speed = some .sequence) :
    ∃ v, f.speedValue = some v ∧
      f.resolved.lastSpeed = f.turn.context.sequence.lastSpeed + v := by
  cases hd : f.fire.speed with
  | none =>
    rw [hd] at h
    cases h
  | some source =>
    cases hv : f.speedValue with
    | none => simp [speedValue, hd, value] at hv
    | some v => exact ⟨v, rfl, by rw [resolved, h, hv]; rfl⟩

theorem Turn.firedBy_of_misfire {p : Pattern} {id : TaskId} {task : Task} {fire : FireState}
    {t : Turn} (h : t.pool.isFull = true ∨ ∃ e t', runFire p id task fire t = .error e t') :
    firedBy p id task fire t = [] := by
  unfold firedBy
  split
  · rename_i hr
    rcases h with hp | ⟨e, t', he⟩
    · rw [if_pos hp]
    · rw [he] at hr
      cases hr
  · rfl

theorem Turn.sequence_of_misfire {p : Pattern} {id : TaskId} {task : Task} {fire : FireState}
    {t : Turn} (h : t.pool.isFull = true ∨ ∃ e t', runFire p id task fire t = .error e t') :
    (state (runFire p id task fire t)).context.sequence = t.context.sequence := by
  rw [(shoots_fire p id task fire t).sequence, firedBy_of_misfire h]
  rfl

namespace HostCall

theorem firings_of_not_update {c : HostCall} (h : ∀ dt, c ≠ .update dt) (s : Simulation) :
    c.firings s = [] := by
  cases c with
  | update dt => exact absurd rfl (h dt)
  | _ => rfl

/-- The sequence state of every run is that of the last bullet fired in it, whatever the host asks
for: each fire counts on from the one before it, and nothing but a fire that goes well changes it.
Where no two bullets share a slot, the last bullet after a frame with fires flies by it. -/
theorem sequence_is_of_last_fire (capacity : Nat) (seed : UInt64) (rank : Float32)
    (cull : Option Bounds) (margin : Float32) (calls : List HostCall) :
    let start := Simulation.init capacity seed rank cull margin
    let s := performAll calls start
    let fs := firedIn calls start
    let since (fs : List Firing) : SequenceState := (⟨0, 0⟩ : SequenceState).after fs
    (s.context.sequence = since fs ∧ s.context.stats.fired = fs.length) ∧
    (∀ pre f post, fs = pre ++ f :: post → f.Succeeds ∧
      (Turn.sourceMode f.pattern f.fire.direction = some .sequence →
        ∃ v, f.directionValue = some v ∧
          f.resolved.lastDirection = (since pre).lastDirection + v) ∧
      (Turn.sourceMode f.pattern f.fire.speed = some .sequence →
        ∃ v, f.speedValue = some v ∧ f.resolved.lastSpeed = (since pre).lastSpeed + v)) ∧
    (∀ (c : HostCall) (s : Simulation), (∀ dt, c ≠ .update dt) →
      (c.perform s).context.sequence = s.context.sequence) ∧
    (∀ p id task fire t,
      (t.pool.isFull = true ∨ ∃ e t', Turn.runFire p id task fire t = .error e t') →
      (Turn.state (Turn.runFire p id task fire t)).context.sequence = t.context.sequence) ∧
    (∀ dt, s.pool.Sound → s.pool.Seated → s.firings dt ≠ [] →
      ∃ id b, (s.update dt).pool.ids.getLast? = some id ∧ (s.update dt).get? id = some b ∧
        b.speed = (s.update dt).context.sequence.lastSpeed ∧
        b.direction = Angle.toRadians (s.update dt).context.sequence.lastDirection) ∧
    ∀ ok issued s, Simulation.Reachable ok issued s → s.pool.Sound ∧ s.pool.Seated := by
  intro start s fs since
  have hr : start.context.Records s.context fs := records_performAll calls start
  refine ⟨⟨hr.sequence, hr.fired.trans (Nat.zero_add _)⟩, ?_, ?_, ?_, ?_, ?_⟩
  · intro pre f post hfs
    have hlink : f.turn.context.sequence = since pre := hr.linked pre f post hfs
    refine ⟨hr.succeeds f (hfs ▸ by simp), ?_, ?_⟩
    · intro hm
      exact hlink ▸ Firing.direction_of_sequence hm
    · intro hm
      exact hlink ▸ Firing.speed_of_sequence hm
  · intro c s hc
    rw [(records_perform c s).sequence, firings_of_not_update hc]
    rfl
  · intro p id task fire t h
    exact Turn.sequence_of_misfire h
  · intro dt hs hp hf
    obtain ⟨id, b, hlast, hb, hq⟩ := Simulation.last_of_firings hs hp hf
    exact ⟨id, b, hlast, hb, hq.speed, hq.direction⟩
  · intro ok issued s h
    obtain ⟨ho, _⟩ := h.orderly (g := False) (Q := fun _ => True) (fun _ _ => nofun) nofun
    exact ⟨ho.pool, ho.seated⟩

/-- In the first frame of a spark, the bullet that it fires comes to stand last. -/
theorem spark_sequence_is_of_last_fire :
    Simulation.lit.firings 0 ≠ [] ∧ ∃ id b,
      (Simulation.lit.update 0).pool.ids.getLast? = some id ∧
      (Simulation.lit.update 0).get? id = some b ∧
      b.speed = (Simulation.lit.update 0).context.sequence.lastSpeed := by
  have hlit : performAll [.spawn .spark .zero] (.init 4 0 0 none 0) = Simulation.lit := rfl
  have h := sequence_is_of_last_fire 4 0 0 none 0 [.spawn .spark .zero]
  simp only [hlit] at h
  obtain ⟨_, _, _, _, hlast, hsound⟩ := h
  obtain ⟨hs, hp⟩ := hsound (fun _ => True) _ _ (Simulation.reachable_lit trivial)
  have hf : Simulation.lit.firings 0 ≠ [] := by
    rw [← List.isEmpty_eq_false_iff]
    decide +kernel
  obtain ⟨id, b, hid, hb, hspeed, _⟩ := hlast 0 hs hp hf
  exact ⟨hf, id, b, hid, hb, hspeed⟩

end HostCall

/-- A pattern that fires one bullet and vanishes at once. -/
def Pattern.flare : Pattern :=
  let p := ((ofName "flare").addNode root .action).2
  let p := (p.setLabel ⟨1⟩ "top").1
  let p := (p.addNode ⟨1⟩ .fire).2
  let p := (p.addNode ⟨2⟩ .bullet).2
  (p.addNode ⟨1⟩ .vanish).2

/-- A handle that was never given out can free a slot twice. The bullet that is then fired shares
the slot of the one that fires it and is gone with it: a frame with a fire leaves no last bullet. -/
theorem HostCall.shared_slot_has_no_last_bullet :
    ¬ ∀ (calls : List HostCall) (dt : Float32),
      let s := performAll calls (.init 4 0 0 none 0)
      s.firings dt ≠ [] →
      ∃ id b, (s.update dt).pool.ids.getLast? = some id ∧ (s.update dt).get? id = some b ∧
        b.speed = (s.update dt).context.sequence.lastSpeed ∧
        b.direction = Angle.toRadians (s.update dt).context.sequence.lastDirection := by
  intro h
  have hf : ((performAll [.create .zero 0 0, .vanish ⟨0, 0⟩, .vanish ⟨0, 1⟩, .spawn .flare .zero]
      (.init 4 0 0 none 0)).firings 0) ≠ [] := by
    rw [← List.isEmpty_eq_false_iff]
    decide +kernel
  obtain ⟨id, b, hid, _⟩ := h _ 0 hf
  have hnone : ((performAll [.create .zero 0 0, .vanish ⟨0, 0⟩, .vanish ⟨0, 1⟩,
      .spawn .flare .zero] (.init 4 0 0 none 0)).update 0).pool.ids.getLast? = none := by
    decide +kernel
  rw [hnone] at hid
  cases hid

end Barrage

import Barrage.Proofs.Orderly

namespace Barrage

/-- The frame of a bullet `b`: `b₁` after its tasks and `b'` after its flight. One that had vanished
runs no tasks. -/
structure Bullet.Flies (s : Simulation) (scale : Float32) (b b₁ b' : Bullet) : Prop where
  alike : b.Alike b₁
  still : b.vanished = true → b₁ = b
  id : b'.id = b.id
  pos : b'.pos = b.pos + b₁.velocity.scale scale
  age : b'.age = b.age + 1
  vanished : b'.vanished = (b₁.vanished || s.isOutside b')

namespace Simulation

/-- The turn of a bullet, which is taken out of its slot for it. -/
def turn (s : Simulation) (b : Bullet) : Turn :=
  ⟨b, s.tasks, (s.pool.take b.id).2, s.context, s.notices⟩

/-- The simulation after a turn, with the bullet still out of its slot. -/
def after (s : Simulation) (t : Turn) : Simulation :=
  { s with pool := t.pool, tasks := t.tasks, context := t.context, notices := t.notices }

def flown (s : Simulation) (scale : Float32) (b : Bullet) : Bullet :=
  if s.isOutside (b.move scale) then (b.move scale).vanish else b.move scale

/-- The frames of some bullets one after the other, with every task that was run in them. -/
inductive Ticks (scale : Float32) :
    Simulation → List BulletId → List Turn.Call → Simulation → Prop where
  | nil {s : Simulation} : Ticks scale s [] [] s
  | drifts {s s' : Simulation} {ids : List BulletId} {calls : List Turn.Call} {b : Bullet}
      (hb : s.get? b.id = some b) (hv : b.vanished = true)
      (hs : Ticks scale ((s.after (s.turn b)).settle scale b) ids calls s') :
      Ticks scale s (b.id :: ids) calls s'
  | plays {s s' : Simulation} {ids : List BulletId} {calls more : List Turn.Call} {b : Bullet}
      {t : Turn} (hb : s.get? b.id = some b) (hv : b.vanished = false)
      (hp : (s.turn b).Plays calls t)
      (hs : Ticks scale ((s.after t).settle scale t.bullet) ids more s') :
      Ticks scale s (b.id :: ids) (calls ++ more) s'

/-- What is run in the frame of one bullet. -/
def logTick (s : Simulation) (id : BulletId) : List Turn.Call :=
  match s.get? id with
  | some b => if b.vanished then [] else (s.turn b).logTasks
  | none => []

/-- What is run in the frames of some bullets one after the other. -/
def logAll (scale : Float32) : List BulletId → Simulation → List Turn.Call
  | [], _ => []
  | id :: ids, s => s.logTick id ++ logAll scale ids (s.tick scale id)

/-- Neither the frame count nor the bounds have changed. -/
def Alike (s s' : Simulation) : Prop :=
  s'.frame = s.frame ∧ s'.cull = s.cull ∧ s'.cullMargin = s.cullMargin

/-- One frame of one bullet, in which `shots` were fired. -/
structure Ticked (g : Prop) (Q : Pattern → Prop) (scale : Float32) (s s' : Simulation) (b : Bullet)
    (calls : List Turn.Call) (shots : List Bullet) : Prop where
  orderly : s'.Orderly g Q
  advances : s.Advances s'
  alike : s.Alike s'
  ids : s'.pool.ids = s.pool.ids ++ shots.map Bullet.id
  flies : ∃ b₁ b', s'.get? b.id = some b' ∧ b.Flies s scale b₁ b'
  others : ∀ k ∈ s.pool.ids, k ≠ b.id → s'.get? k = s.get? k
  added : ∀ shot ∈ shots, s'.get? shot.id = some shot
  launched : ∀ shot ∈ shots, shot.LaunchedFrom b
  logs : Turn.Logs g b.program b calls shots
  played : ∀ c ∈ calls, b.pattern = some b.program

variable {g : Prop} {Q : Pattern → Prop} {s s' s'' : Simulation} {id k : BulletId} {b b' : Bullet}
  {t : Turn} {calls more : List Turn.Call} {shots : List Bullet} {X X' N : Finset TaskId}
  {scale : Float32}

section Flight

theorem flown_id : (s.flown scale b).id = b.id := by
  unfold flown
  split <;> rfl

theorem flown_tasks : (s.flown scale b).tasks = b.tasks := by
  unfold flown
  split <;> rfl

theorem flown_pattern : (s.flown scale b).pattern = b.pattern := by
  unfold flown
  split <;> rfl

theorem Alike.isOutside (h : s.Alike s') (b : Bullet) : s'.isOutside b = s.isOutside b := by
  rw [Simulation.isOutside, Simulation.isOutside, h.2.1, h.2.2]

theorem isOutside_vanish : s.isOutside b.vanish = s.isOutside b := rfl

theorem flies_flown (hs : s.Alike s') (hb : b.Alike b') (hv : b.vanished = true → b' = b) :
    b.Flies s scale b' (s'.flown scale b') := by
  have hpos : (b'.move scale).pos = b.pos + b'.velocity.scale scale := by
    rw [← hb.pos]
    rfl
  have hage : (b'.move scale).age = b.age + 1 := by
    rw [← hb.age]
    rfl
  unfold flown
  split
  · rename_i ho
    rw [hs.isOutside] at ho
    exact ⟨hb, hv, hb.id, hpos, hage, by rw [isOutside_vanish, ho, Bool.or_true]; rfl⟩
  · rename_i ho
    rw [Bool.not_eq_true, hs.isOutside] at ho
    exact ⟨hb, hv, hb.id, hpos, hage, by rw [ho, Bool.or_false]; rfl⟩

end Flight

section Tick

theorem Orderly.poised (h : s.Orderly g Q) (hb : s.get? b.id = some b) :
    ∃ X, b.Drives g Q s.tasks X ∧ Turn.Poised g b.program b.tasks X (s.turn b) := by
  obtain ⟨Z, hZ⟩ := h.tended
  have hm : b ∈ s.bullets := Pool.mem_bullets.2 ⟨b.id, (h.pool.listed _ _ hb).1, hb⟩
  obtain ⟨X, _, hd⟩ := hZ.owned.drives hm
  exact ⟨X, hd, rfl, hd.spans, hd.live, h.arena, h.pool.take, hd.fit⟩

theorem drives_of_ends (he : Turn.Ends g b.program (s.turn b) t X X' N shots)
    (hd : b.Drives g Q s.tasks X) (hidle : b.pattern = none → t = s.turn b) :
    t.bullet.Drives g Q t.tasks X' := by
  have hp : t.bullet.pattern = b.pattern := he.alike.pattern
  refine ⟨he.poised.spans, he.poised.live, ?_, ?_, ?_⟩
  · rw [Bullet.program, hp]
    exact he.poised.fit
  · intro hg hn
    rw [hp] at hn
    rw [hidle hn]
    exact hd.idle hg hn
  · intro hg p hq
    exact hd.legal hg p (hp ▸ hq)

theorem owned_of_ends (he : Turn.Ends g b.program (s.turn b) t X X' N shots)
    (hd : b.Drives g Q s.tasks X) (hidle : b.pattern = none → shots = []) :
    t.tasks.Owned g Q shots N := by
  cases hp : b.pattern with
  | none =>
    have hfired := he.fired
    rw [hidle hp] at hfired ⊢
    cases hfired
    exact .nil
  | some p =>
    apply Arena.Owned.of_shots he.fired he.rooted he.shots
      (fun shot hs => (he.launched shot hs).pattern)
    exact fun hg => ⟨p, hp, hd.legal hg p hp⟩

theorem Orderly.stops_of_ends (h : s.Orderly g Q) (hd : b.Drives g Q s.tasks X)
    (he : Turn.Ends g b.program (s.turn b) t X X' N shots)
    (hidle : b.pattern = none → t = s.turn b) (hg : g) (name : String) (k : BulletId)
    (e : PatternError) (hm : .bulletStopped name k e ∈ t.notices) : ∃ p, Q p ∧ p.Raises e := by
  rcases he.notices.of_mem hm with hold | hclamp | ⟨_, _, hstop, hraise⟩
  · exact h.stops hg name k e hold
  · cases hclamp
  · injection hstop with _ _ heq
    subst heq
    cases hpat : b.pattern with
    | none =>
      rw [hidle hpat] at hm
      exact h.stops hg name k e hm
    | some p =>
      exact ⟨p, hd.legal hg p hpat, Bullet.program_of_some hpat ▸ hraise hg⟩

/-- The bullet that had its turn and those it fired own the tasks that its turn has left. -/
theorem Orderly.tended_of_ends (h : s.Orderly g Q) (hb : s.get? b.id = some b)
    (hd : b.Drives g Q s.tasks X) (he : Turn.Ends g b.program (s.turn b) t X X' N shots)
    (hidle : b.pattern = none → t = s.turn b ∧ shots = []) (ht : b'.tasks = t.bullet.tasks)
    (hp : b'.pattern = t.bullet.pattern) (hw : t.tasks.NoWrap) :
    ∃ Z, t.tasks.Tended g Q (b' :: shots ++ (s.pool.take b.id).2.bullets) Z := by
  obtain ⟨Z, hZ⟩ := h.tended
  apply (hZ.perm (h.pool.bullets_take hb)).replace [b] (b' :: shots) t.tasks
  intro W hW
  have hWX : W = X := hW.spans.unique (by simpa using hd.spans)
  subst hWX
  have hdrives : b'.Drives g Q t.tasks X' :=
    (drives_of_ends he hd fun hn => (hidle hn).1).congr ht fun _ => hp
  have howned := owned_of_ends he hd fun hn => (hidle hn).2
  exact ⟨_, he.replaces, .cons hdrives howned he.apart, .inl hw⟩

/-- A bullet whose turn has ended is put back as it has flown, beside those it fired. -/
theorem returns_of_ends (hid : b.id ∈ s.pool.ids)
    (he : Turn.Ends g b.program (s.turn b) t X X' N shots) :
    s.pool.Returns ((s.after t).settle scale t.bullet).pool ((s.after t).flown scale t.bullet)
      shots := by
  have hself : ((s.after t).flown scale t.bullet).id = b.id := flown_id.trans he.alike.id
  have hadds : (s.pool.take ((s.after t).flown scale t.bullet).id).2.Adds t.pool shots := by
    rw [hself]
    exact he.adds
  exact Pool.Adds.returns (hself ▸ hid) hadds

/-- A bullet whose turn has ended flies on, and everything is in its place again. -/
theorem Orderly.settle (h : s.Orderly g Q) (hb : s.get? b.id = some b)
    (hd : b.Drives g Q s.tasks X) (he : Turn.Ends g b.program (s.turn b) t X X' N shots)
    (hl : Turn.Logs g b.program b calls shots)
    (hidle : b.pattern = none → t = s.turn b ∧ shots = [] ∧ calls = [])
    (hv : b.vanished = true → t.bullet = b) (hw : t.tasks.NoWrap) :
    Ticked g Q scale s ((s.after t).settle scale t.bullet) b calls shots := by
  have hself : ((s.after t).flown scale t.bullet).id = b.id := flown_id.trans he.alike.id
  have hp : s.pool.Returns (t.pool.place ((s.after t).flown scale t.bullet))
      ((s.after t).flown scale t.bullet) shots := returns_of_ends (h.pool.listed _ _ hb).1 he
  have hflies : b.Flies s scale t.bullet ((s.after t).flown scale t.bullet) :=
    flies_flown ⟨rfl, rfl, rfl⟩ he.alike hv
  have hstill (hn : b.pattern = none) : t = s.turn b ∧ shots = [] :=
    ⟨(hidle hn).1, (hidle hn).2.1⟩
  refine ⟨⟨hp.sound, hp.seated h.seated, he.replaces.sound, ?_, ?_⟩,
    ⟨hp.grows, fun k hk => .inl (hp.mem hk)⟩, ⟨rfl, rfl, rfl⟩, hp.ids,
    ⟨_, _, hself ▸ hp.placed, hflies⟩, hself ▸ hp.others, hp.added, he.launched, hl, ?_⟩
  · obtain ⟨Z, hZ⟩ := h.tended_of_ends hb hd he hstill flown_tasks flown_pattern hw
    refine ⟨Z, hZ.perm ?_⟩
    rw [← hself]
    exact hp.bullets.symm
  · exact h.stops_of_ends hd he fun hn => (hstill hn).1
  · intro c hc
    cases hpat : b.pattern with
    | none =>
      rw [(hidle hpat).2.2] at hc
      cases hc
    | some p => rw [Bullet.program_of_some hpat]

/-- The turn of a bullet, whether or not it runs its tasks, keeps everything in order. -/
theorem Orderly.plays (h : s.Orderly g Q) (hQ : g → ∀ p, Q p → p.Closed)
    (hb : s.get? b.id = some b) (hv : b.vanished = false) (hp : (s.turn b).Plays calls t)
    (hw : t.tasks.NoWrap) :
    ∃ shots, Ticked g Q scale s ((s.after t).settle scale t.bullet) b calls shots := by
  obtain ⟨X, hd, hpoised⟩ := h.poised hb
  have hvan : b.vanished = true → t.bullet = b := fun ht => by
    rw [hv] at ht
    cases ht
  cases hp with
  | idle hnone =>
    exact ⟨[], h.settle hb hd (.refl hpoised) (.nil b) (fun _ => ⟨rfl, rfl, rfl⟩) hvan hw⟩
  | @runs p _ _ hsome hr =>
    have hprog : b.program = p := Bullet.program_of_some hsome
    subst hprog
    obtain ⟨X', N, shots, he, hl⟩ :=
      hr.outcome (fun hg => hQ hg _ (hd.legal hg _ hsome)) hpoised hw
    refine ⟨shots, h.settle hb hd he hl ?_ hvan hw⟩
    intro hnone
    rw [show b.pattern = _ from hsome] at hnone
    cases hnone

theorem Orderly.drifts (h : s.Orderly g Q) (hb : s.get? b.id = some b) (hw : s.tasks.NoWrap) :
    Ticked g Q scale s ((s.after (s.turn b)).settle scale b) b [] [] := by
  obtain ⟨X, hd, hpoised⟩ := h.poised hb
  exact h.settle (t := s.turn b) hb hd (.refl hpoised) (.nil b) (fun _ => ⟨rfl, rfl, rfl⟩)
    (fun _ => rfl) hw

theorem tick_drifts (hb : s.get? b.id = some b) (hv : b.vanished = true) :
    s.tick scale b.id = (s.after (s.turn b)).settle scale b := by
  have ht : s.pool.take b.id = (some b, (s.pool.take b.id).2) := congrArg (·, _) hb
  unfold tick
  rw [ht]
  simp only [hv, if_true]
  rfl

theorem tick_plays (hb : s.get? b.id = some b) (hv : b.vanished = false) :
    s.tick scale b.id =
      (s.after (s.turn b).runTasks).settle scale (s.turn b).runTasks.bullet := by
  have ht : s.pool.take b.id = (some b, (s.pool.take b.id).2) := congrArg (·, _) hb
  unfold tick
  rw [ht]
  simp only [hv]
  rfl

theorem evolves_tick (hs : s.tasks.Sound) (scale : Float32) (id : BulletId) :
    s.tasks.Evolves (s.tick scale id).tasks := by
  unfold tick
  split
  · exact hs.evolves
  · rename_i b pool _
    simp only
    split
    · exact hs.evolves
    · obtain ⟨calls, hp⟩ := Turn.plays_runTasks ⟨b, s.tasks, pool, s.context, s.notices⟩
      exact hp.evolves hs

theorem context_tick (s : Simulation) (scale : Float32) (id : BulletId) :
    s.context.Alike (s.tick scale id).context := by
  unfold tick
  rcases s.pool.take id with ⟨_ | b, pool⟩
  · exact .refl _
  · simp only
    split
    · exact .refl _
    · exact Turn.context_runTasks ⟨b, s.tasks, pool, s.context, s.notices⟩

theorem logTick_drifts (hb : s.get? b.id = some b) (hv : b.vanished = true) :
    s.logTick b.id = [] := by
  rw [logTick, hb]
  simp only [hv, if_true]

theorem logTick_plays (hb : s.get? b.id = some b) (hv : b.vanished = false) :
    s.logTick b.id = (s.turn b).logTasks := by
  rw [logTick, hb]
  simp only [hv, Bool.false_eq_true, if_false]

/-- Every bullet is found when its frame comes, and the frame keeps everything in order. -/
theorem Orderly.tick (h : s.Orderly g Q) (hQ : g → ∀ p, Q p → p.Closed) (hid : id ∈ s.pool.ids)
    (hw : (s.tick scale id).tasks.NoWrap) :
    ∃ b shots, Ticked g Q scale s (s.tick scale id) b (s.logTick id) shots ∧
      ∀ ids more s', Ticks scale (s.tick scale id) ids more s' →
        Ticks scale s (id :: ids) (s.logTick id ++ more) s' := by
  obtain ⟨b, hb⟩ := h.find hid
  obtain rfl : b.id = id := (h.pool.listed id b hb).2
  cases hv : b.vanished with
  | true =>
    rw [tick_drifts hb hv] at hw ⊢
    rw [logTick_drifts hb hv]
    exact ⟨b, [], h.drifts hb hw, fun ids more s' hs => .drifts hb hv hs⟩
  | false =>
    rw [tick_plays hb hv] at hw ⊢
    rw [logTick_plays hb hv]
    have hp := (s.turn b).logged_tasks
    obtain ⟨shots, ht⟩ := h.plays hQ hb hv hp hw
    exact ⟨b, shots, ht, fun ids more s' hs => .plays hb hv hp hs⟩

end Tick

section TickAll

def tickAll (s : Simulation) (scale : Float32) (ids : List BulletId) : Simulation :=
  ids.foldl (fun s id => s.tick scale id) s

/-- What the frames of some bullets do, in which `shots` were fired. -/
structure Framed (g : Prop) (Q : Pattern → Prop) (scale : Float32) (s s' : Simulation)
    (ids : List BulletId) (calls : List Turn.Call) (shots : List Bullet) : Prop where
  orderly : s'.Orderly g Q
  advances : s.Advances s'
  alike : s.Alike s'
  order : s'.pool.ids = s.pool.ids ++ shots.map Bullet.id
  flies : ∀ id ∈ ids, ∃ b b₁ b', s.get? id = some b ∧ s'.get? id = some b' ∧ b.Flies s scale b₁ b'
  others : ∀ k ∈ s.pool.ids, k ∉ ids → s'.get? k = s.get? k
  added : ∀ shot ∈ shots, s'.get? shot.id = some shot ∧ shot.vanished = false
  fired : shots.map Bullet.id = calls.flatMap Turn.Call.fired
  logged : ∀ c ∈ calls, ∃ b, b.id ∈ ids ∧ s.get? b.id = some b ∧ b.Alike c.before.bullet ∧
    b.pattern = some b.program ∧ c.Safe g b.program ∧
    ∀ k ∈ c.fired, ∃ shot, s'.get? k = some shot ∧ shot.LaunchedFrom b

theorem Ticked.mem (h : Ticked g Q scale s s' b calls shots) (hk : k ∈ s.pool.ids) :
    k ∈ s'.pool.ids := by
  rw [h.ids]
  exact List.mem_append_left _ hk

theorem Alike.trans (h₁ : s.Alike s') (h₂ : s'.Alike s'') : s.Alike s'' :=
  ⟨h₂.1.trans h₁.1, h₂.2.1.trans h₁.2.1, h₂.2.2.trans h₁.2.2⟩

theorem Alike.flies {b₁ : Bullet} (hs : s.Alike s') (h : b.Flies s' scale b₁ b') :
    b.Flies s scale b₁ b' :=
  { h with vanished := by rw [h.vanished, hs.isOutside] }

theorem evolves_tickAll (hs : s.tasks.Sound) (scale : Float32) (ids : List BulletId) :
    s.tasks.Evolves (s.tickAll scale ids).tasks := by
  induction ids generalizing s with
  | nil => exact hs.evolves
  | cons id ids ih => exact (evolves_tick hs scale id).bind ih

theorem Framed.nil (h : s.Orderly g Q) : Framed g Q scale s s [] [] [] where
  orderly := h
  advances := .refl s
  alike := ⟨rfl, rfl, rfl⟩
  order := by simp
  flies _ hm := absurd hm List.not_mem_nil
  others _ _ _ := rfl
  added _ hm := absurd hm List.not_mem_nil
  fired := rfl
  logged _ hm := absurd hm List.not_mem_nil

/-- One more bullet has its frame before the others. -/
theorem Ticked.cons {ids : List BulletId} {next : List Bullet} (h : s.Orderly g Q)
    (hb : s.get? b.id = some b) (h₁ : Ticked g Q scale s s' b calls shots)
    (h₂ : Framed g Q scale s' s'' ids more next) (hid : b.id ∉ ids)
    (hm : ∀ k ∈ ids, k ∈ s.pool.ids) :
    Framed g Q scale s s'' (b.id :: ids) (calls ++ more) (shots ++ next) := by
  have hself : b.id ∈ s.pool.ids := (h.pool.listed _ _ hb).1
  have hsame {k} (hk : k ∈ ids) : s'.get? k = s.get? k :=
    h₁.others k (hm k hk) fun he => hid (he ▸ hk)
  have hshots {shot} (hs : shot ∈ shots) : s''.get? shot.id = some shot := by
    have hin : shot.id ∈ s'.pool.ids := by
      rw [h₁.ids]
      exact List.mem_append_right _ (List.mem_map_of_mem hs)
    have hnodup := h₁.orderly.pool.nodup
    rw [h₁.ids] at hnodup
    have hout : shot.id ∉ ids := fun hk =>
      (List.nodup_append.1 hnodup).2.2 _ (hm _ hk) _ (List.mem_map_of_mem hs) rfl
    rw [h₂.others _ hin hout]
    exact h₁.added shot hs
  refine ⟨h₂.orderly, h₁.advances.trans h₂.advances, h₁.alike.trans h₂.alike, ?_, ?_, ?_, ?_, ?_,
    ?_⟩
  · rw [h₂.order, h₁.ids, List.map_append, List.append_assoc]
  · intro k hk
    rcases List.mem_cons.1 hk with rfl | hk
    · obtain ⟨b₁, b', hb', hf⟩ := h₁.flies
      exact ⟨b, b₁, b', hb, (h₂.others _ (h₁.mem hself) hid).trans hb', hf⟩
    · obtain ⟨c, c₁, c', hc, hc', hf⟩ := h₂.flies k hk
      exact ⟨c, c₁, c', (hsame hk).symm.trans hc, hc', h₁.alike.flies hf⟩
  · intro k hk hn
    rw [List.mem_cons, not_or] at hn
    rw [h₂.others k (h₁.mem hk) hn.2, h₁.others k hk hn.1]
  · intro shot hs
    rcases List.mem_append.1 hs with hs | hs
    · exact ⟨hshots hs, (h₁.launched shot hs).vanished⟩
    · exact h₂.added shot hs
  · rw [List.map_append, List.flatMap_append, h₁.logs.fired, h₂.fired]
  · intro c hc
    rcases List.mem_append.1 hc with hc | hc
    · refine ⟨b, List.mem_cons_self, hb, h₁.logs.within c hc, h₁.played c hc, h₁.logs.safe c hc, ?_⟩
      intro k hk
      have hin : k ∈ shots.map Bullet.id := by
        rw [h₁.logs.fired]
        exact List.mem_flatMap.2 ⟨c, hc, hk⟩
      obtain ⟨shot, hs, rfl⟩ := List.mem_map.1 hin
      exact ⟨shot, hshots hs, h₁.launched shot hs⟩
    · obtain ⟨d, hd, hget, hrest⟩ := h₂.logged c hc
      exact ⟨d, List.mem_cons_of_mem _ hd, (hsame hd).symm.trans hget, hrest⟩

theorem Ticked.extend {ids : List BulletId} (ht : Ticked g Q scale s s' b calls shots)
    (h : s.Orderly g Q) (hb : s.get? b.id = some b) (hn : (b.id :: ids).Nodup)
    (hm : ∀ k ∈ b.id :: ids, k ∈ s.pool.ids)
    (hrest : s'.Orderly g Q → ids.Nodup → (∀ k ∈ ids, k ∈ s'.pool.ids) →
      ∃ next, Framed g Q scale s' s'' ids more next) :
    ∃ next, Framed g Q scale s s'' (b.id :: ids) (calls ++ more) next := by
  obtain ⟨hid, hn⟩ := List.nodup_cons.1 hn
  have hm' (k) (hk : k ∈ ids) : k ∈ s.pool.ids := hm k (List.mem_cons_of_mem _ hk)
  obtain ⟨next, hf⟩ := hrest ht.orderly hn fun k hk => ht.mem (hm' k hk)
  exact ⟨shots ++ next, ht.cons h hb hf hid hm'⟩

theorem Ticks.evolves {ids : List BulletId} (h : Ticks scale s ids calls s')
    (hs : s.tasks.Sound) : s.tasks.Evolves s'.tasks := by
  induction h with
  | nil => exact hs.evolves
  | drifts _ _ _ ih => exact ih hs
  | plays _ _ hp _ ih => exact (hp.evolves hs).bind ih

/-- The frames of live bullets keep everything in order, and leave alone what is not theirs. -/
theorem Ticks.framed {ids : List BulletId} (h : Ticks scale s ids calls s')
    (ho : s.Orderly g Q) (hQ : g → ∀ p, Q p → p.Closed) (hn : ids.Nodup)
    (hm : ∀ id ∈ ids, id ∈ s.pool.ids) (hw : s'.tasks.NoWrap) :
    ∃ shots, Framed g Q scale s s' ids calls shots := by
  induction h with
  | nil => exact ⟨[], .nil ho⟩
  | drifts hb _ hs ih =>
    have hw' := (hs.evolves ho.arena).grows.noWrap hw
    exact (ho.drifts hb hw').extend ho hb hn hm fun ho hn hm => ih ho hn hm hw
  | plays hb hv hp hs ih =>
    have hw' := (hs.evolves (hp.evolves ho.arena).sound).grows.noWrap hw
    obtain ⟨shots, ht⟩ := ho.plays hQ hb hv hp hw'
    exact ht.extend ho hb hn hm fun ho hn hm => ih ho hn hm hw

/-- No bullet is missing when its frame comes. -/
theorem Orderly.ticks {ids : List BulletId} (h : s.Orderly g Q) (hQ : g → ∀ p, Q p → p.Closed)
    (hm : ∀ id ∈ ids, id ∈ s.pool.ids) (hw : (s.tickAll scale ids).tasks.NoWrap) :
    Ticks scale s ids (s.logAll scale ids) (s.tickAll scale ids) := by
  induction ids generalizing s with
  | nil => exact .nil
  | cons id ids ih =>
    have hstep := evolves_tick h.arena scale id
    have hw' := (evolves_tickAll hstep.sound scale ids).grows.noWrap hw
    obtain ⟨b, shots, ht, htrace⟩ := h.tick hQ (hm id List.mem_cons_self) hw'
    have hm' (k) (hk : k ∈ ids) : k ∈ (s.tick scale id).pool.ids :=
      ht.mem (hm k (List.mem_cons_of_mem _ hk))
    exact htrace ids _ _ (ih ht.orderly hm' hw)

end TickAll

end Simulation
end Barrage

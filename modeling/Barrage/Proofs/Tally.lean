import Barrage.Proofs.Repeats

namespace Barrage

/-- A number that is negative or not finite counts as zero. -/
theorem Binary32.toCount_of_not_positive {x : Float32}
    (h : ∀ m e hm, x.toModel.unpack ≠ .finite .positive m e hm) : toCount x = 0 := by
  unfold toCount
  split
  · rename_i m e hm hx
    exact absurd hx (h m e hm)
  · rfl

namespace Binder

variable {b : Binder} {room : Nat} {node : NodeId} {owner : Option TaskId} {params : List Float32}
  {s s' : BindState} {id : TaskId}

/-- A `repeat` is bound over one body, with a count that is not known yet. -/
theorem bound_repeat (hs : s.tasks.Sound) (he : b.pattern.element node = .repeat)
    (hb : b.bindNode (room + 1) node owner params s = .ok (some id) s') :
    ∃ count body X, b.pattern.child? node .times = some count ∧
      s'.tasks.get? id = some ⟨node, owner, [body], params, .repeat ⟨none, 0, room⟩, .parsed⟩ ∧
      s'.tasks.Spans [id] X ∧ s'.tasks.Fit False b.pattern X := by
  have hbinds := b.follows_node (room + 1) node owner params s hs
  have hyields := expands_node (g := False) (b := b) nofun (room + 1) node params nofun s.random
  rw [hb] at hbinds
  generalize hx : b.expandNode (room + 1) node params s.random = x at hbinds hyields
  cases hbinds with
  | ok hr hh =>
    obtain ⟨y, hd, hy⟩ := (b.finds_all_levels (room + 1) (.initial params) node s.random _ _).1 hx
    have hspans := hh.spans
    have hfit := hh.fit (by simpa using hyields.1)
    cases hd with
    | @«repeat» _ _ _ _ _ _ _ tree _ hcount =>
      cases hy
      cases tree
      cases hh with
      | cons ht hc =>
        cases hc with
        | cons _ _ _ hnil =>
          cases hnil
          exact ⟨_, _, _, hcount, ht, hspans, hfit⟩
    | _ => simp_all

end Binder

namespace Turn

variable {p : Pattern} {fuel m f : Nat} {id body : TaskId} {task : Task} {st : RepeatState}
  {t : Nat → Turn} {u v : Turn} {a : Arena} {count : NodeId}

/-- How often a `repeat` is to run its body, as its count reads now. -/
def wanted (p : Pattern) (count : NodeId) (params : List Float32) (u : Turn) : UInt32 :=
  min (Binary32.toCount (p.evalNode count (u.context.scope params u.bullet) u.context.random).1)
    maxRepeat

/-- A `repeat` that does not know yet how often it runs its body finds it out, from its count. -/
theorem repeatTimes_of_new (hc : p.child? task.node .times = some count) (hn : st.times = none) :
    ∃ v, repeatTimes p id task st u = .ok (wanted p count task.params u) v ∧
      Counts p id task st u (wanted p count task.params u) v := by
  have found (n : UInt32) (random : Random) :
      answer ((do
        let times := if maxRepeat < n then maxRepeat else n
        if maxRepeat < n then notify (.repeatClamped p.name task.node n maxRepeat)
        setKind id (.repeat { st with times := some times })
        pure times : Run UInt32) { u with context := { u.context with random } }) =
          .ok (min n maxRepeat) := by
    by_cases h : maxRepeat < n
    · rw [show min n maxRepeat = maxRepeat from if_neg (UInt32.not_le.2 h)]
      simp only [h, if_true]
      rfl
    · rw [show min n maxRepeat = n from if_pos (UInt32.not_lt.1 h)]
      simp only [h, if_false]
      rfl
  have hanswer : answer (repeatTimes p id task st u) = .ok (wanted p count task.params u) := by
    unfold repeatTimes wanted
    generalize hx : p.evalNode count (u.context.scope task.params u.bullet) u.context.random = x
    have heval : (Binary32.toCount <$> eval p count task.params) u =
        .ok (Binary32.toCount x.1) { u with context := { u.context with random := x.2 } } := by
      subst hx
      exact map_of_ok rfl
    simp only [hn, hc, bind_of_ok heval]
    exact found (Binary32.toCount x.1) x.2
  obtain ⟨times, v, hrun, hcounts⟩ := counts_repeatTimes p id task st u
  rw [hrun] at hanswer
  cases hanswer
  exact ⟨v, hrun, hcounts⟩

namespace Repeater

variable {l : Repeater} {rounds : List Round}

/-- A `repeat` from its first frame, which comes to `u` once it is found out how often the body is
to run, to its last. `body` is the one that it was bound with. From there on run follows run. As many
bodies end as are to, and when one is run, fewer have ended. The `repeat` then holds no other, and
none of the others is there. Nothing else is run, in later frames the count is known, and in the end
nothing is left below the `repeat`. -/
structure Completes (l : Repeater) (m : Nat) (t : Nat → Turn) (body : TaskId) (u : Turn)
    (rounds : List Round) : Prop where
  first : ∀ c ∈ rounds.head?, c.frame = 0 ∧ c.call.task = body ∧ c.call.before = u
  next : rounds.IsChain (l.Next t)
  last : ∀ c ∈ rounds.getLast?, c.frame = m ∧ c.ends = true
  idle : rounds = [] → m = 0
  count : rounds.countP Round.ends = l.times.toNat
  distinct : ((rounds.filter Round.ends).map fun c => c.call.task).Nodup
  held : ∀ pre c post, rounds = pre ++ c :: post → ∃ k : UInt32,
    k.toNat = pre.countP Round.ends ∧ k < l.times ∧
    c.call.before.tasks.get? l.id = some (l.atWork c.call.task k) ∧ ∃ status,
      l.runBody c.call.task c.call.before = .ok status c.call.after ∧ c.call.answer = .ok status
  log : ∀ f ≤ m, logTask l.pattern (l.fuel + 1) l.id (t f) =
    ⟨l.id, t f, answer (l.run (t f)), state (l.run (t f))⟩ :: l.during rounds f
  known : ∀ f, 0 < f → f ≤ m → ∃ body k, (t f).tasks.get? l.id = some (l.atWork body k) ∧
    ∀ v, repeatTimes l.pattern l.id (l.atWork body k) ⟨some l.times, k, l.room⟩ v = .ok l.times v
  alone : ∀ c ∈ rounds, ∀ e ∈ rounds, e.call.task ≠ c.call.task → ∀ d ∈ l.log c,
    d.before.tasks.get? e.call.task = none ∧ d.after.tasks.get? e.call.task = none
  cleared : (l.final m t).tasks.below [l.id] = {l.id}
  gone : ∀ k ∈ body :: rounds.map fun c => c.call.task, (l.final m t).tasks.get? k = none

theorem Serves.completes (h : l.Serves m t 0 body 0 u rounds) (hw : (l.final m t).tasks.NoWrap)
    (hl : logTask l.pattern (l.fuel + 1) l.id (t 0) =
      ⟨l.id, t 0, answer (l.run (t 0)), state (l.run (t 0))⟩ :: l.logRest 0 u) :
    l.Completes m t body u rounds where
  first := by
    obtain ⟨_, _, _, rfl⟩ := h.head
    simp
  next := h.chain hw
  last := h.last_ends
  idle hnil := by
    obtain ⟨_, _, _, hcons⟩ := h.head
    rw [hnil] at hcons
    cases hcons
  count := by
    have hcount := h.count
    rwa [show (0 : UInt32).toNat = 0 from rfl, Nat.zero_add] at hcount
  distinct := h.distinct hw
  held pre c post heq := by
    obtain ⟨k, hk, hholds, hr⟩ := h.held pre c post heq
    exact ⟨k, hk.trans (Nat.zero_add _), hholds.more, hholds.get?, hr⟩
  log f hf := by
    rcases Nat.eq_zero_or_pos f with rfl | hpos
    · rw [hl, h.logRest hw]
    · exact (h.later hw hpos hf).2
  known f hpos hf := by
    obtain ⟨⟨body, k, hholds⟩, _⟩ := h.later hw hpos hf
    exact ⟨body, k, hholds.get?, fun _ => rfl⟩
  alone c hc e he hne d hd := by
    obtain ⟨_, hholds, _, hr⟩ := h.mem hc
    have hw' := ((h.within hw).2 c hc).left.grows.noWrap hw
    have hd' := ((logged_task _ _ _ _).ran hr).within hholds.sound trivial hw' hd
    exact ⟨h.alone hw hc he hne hd'.entered (hd'.ran.trans hd'.left),
      h.alone hw hc he hne (hd'.entered.trans hd'.ran) hd'.left⟩
  cleared := h.over hw
  gone k hk := by
    have hdead := h.gone hw
    rcases List.mem_cons.1 hk with rfl | hk
    · obtain ⟨c, hc, rfl⟩ := h.first_mem
      exact (hdead c hc).get? hw
    · obtain ⟨c, hc, rfl⟩ := List.mem_map.1 hk
      exact (hdead c hc).get? hw

/-- A `repeat` over no bodies lets go of the one that it was bound with, in its only frame. -/
theorem completes_none {X : Finset TaskId} {left : Nat}
    (hs : Starts False l.pattern (.bodies l.room l.id left) X u)
    (ht : u.tasks.get? l.id = some (l.atWork body 0)) (hz : l.times = 0)
    (hf : RepeatFrames l.run l.id a m t) (hr : l.Reaches (t 0) 0 u)
    (hl : logTask l.pattern (l.fuel + 1) l.id (t 0) =
      ⟨l.id, t 0, answer (l.run (t 0)), state (l.run (t 0))⟩ :: l.logRest 0 u) :
    l.Completes m t body u [] := by
  have hrest : l.runRest 0 u = .ok .ended (u.shed body) := by
    rw [runRest, hz]
    exact runBodies_of_spent ht rfl
  obtain ⟨status, v, hrun, _, hend⟩ := hf.runs 0 (Nat.zero_le m)
  obtain ⟨hanswer, hstate⟩ := hr
  rw [hrest, hrun] at hanswer hstate
  cases hanswer
  obtain rfl : 0 = m := hend.1 rfl
  have hfinal : l.final 0 t = (u.shed body).close l.id (.ok .ended) := by
    rw [final, hrun]
    exact hstate
  obtain ⟨_, _, hone, _, _, hbody, _⟩ := hs.held ht
  cases hone
  have hshed : (u.shed body).tasks.IsDead body := (hbody.spans.release_root hbody.tasks).2
  have hdead : (l.final 0 t).tasks.IsDead body := by
    rw [hfinal]
    exact hshed.grows (grows_close l.id _)
  exact {
    first := by simp
    next := .nil
    last := by simp
    idle := fun _ => rfl
    count := by
      rw [hz]
      rfl
    distinct := List.nodup_nil
    held := by simp
    log := by
      intro f hm
      obtain rfl := Nat.le_zero.1 hm
      rw [hl, logRest, hz]
      rfl
    known := fun f hpos hm => absurd hm (Nat.not_le.2 hpos)
    alone := by simp
    cleared := by
      rw [hfinal]
      exact (hs.spent ht rfl).leaves.spans.below_eq.trans (Finset.coe_singleton _)
    gone := by
      intro k hk
      rw [List.mem_singleton.1 hk]
      exact hdead.get? hf.noWrap }

/-- The `repeat` as it was bound. -/
def asBound (l : Repeater) (body : TaskId) : Task :=
  ⟨l.node, l.owner, [body], l.params, .repeat ⟨none, 0, l.room⟩, .parsed⟩

theorem completes_of_times {X : Finset TaskId} (h : RepeatFrames l.run l.id a m t)
    (hs : Starts False l.pattern (.task l.id) X (t 0))
    (ht : (t 0).tasks.get? l.id = some (l.asBound body))
    (hn : repeatTimes l.pattern l.id (l.asBound body) ⟨none, 0, l.room⟩ ((t 0).start l.id) =
      .ok l.times u)
    (hc : Counts l.pattern l.id (l.asBound body) ⟨none, 0, l.room⟩ ((t 0).start l.id) l.times u) :
    ∃ rounds, l.Completes m t body u rounds := by
  obtain ⟨hanswer, hstate, hlog⟩ := frame_of_times l.fuel ht rfl rfl hn
  have hreach : l.Reaches (t 0) 0 u := ⟨hanswer, hstate⟩
  have hcount := (evolves_start l.id hs.tasks).bind hc.evolves
  have hw := hreach.noWrap (h.noWrap_run (Nat.zero_le m))
    (evolves_runBodies l.pattern l.fuel l.room l.id _ hcount.sound)
  have hget : u.tasks.get? l.id = some (l.atWork body 0) := by
    cases hc with
    | known hknown => cases hknown
    | finds =>
      rw [Arena.get?_modify, if_pos rfl, get?_start ht]
      rfl
  obtain ⟨_, hbodies⟩ := hs.bodies ht rfl rfl hc l.room 0 hw
  by_cases hz : l.times = 0
  · exact ⟨[], completes_none hbodies hget hz h hreach hlog⟩
  · have hmore : 0 < l.times := by
      rw [UInt32.lt_iff_toNat_lt]
      exact Nat.pos_of_ne_zero fun hzero => hz (UInt32.toNat_inj.1 hzero)
    have hholds : l.Holds body 0 u := ⟨hget, hmore, X, hbodies.spans, hbodies.tasks, hbodies.pool,
      hbodies.fit, Arena.contains_of_get? hget⟩
    obtain ⟨rounds, hserves⟩ := hholds.serves h (Nat.zero_le m) hreach
    exact ⟨rounds, hserves.completes h.noWrap hlog⟩

end Repeater

/-- A `repeat` that was bound and is run to its end, whatever its body is and whatever else happens
between its frames, finds out once how often its body runs, in its first frame. That many bodies run
to their ends, one after the other. Each but the first is bound when the one before it has ended, and
no two of them are ever there together. In the end none is. -/
theorem bound_repeats_run_their_count {b : Binder} {room : Nat} {node : NodeId}
    {owner : Option TaskId} {params : List Float32} {s s' : BindState} (hs : s.tasks.Sound)
    (he : b.pattern.element node = .repeat)
    (hb : b.bindNode (room + 1) node owner params s = .ok (some id) s')
    (h : RepeatFrames (runTask b.pattern (fuel + 1) id) id s'.tasks m t) :
    ∃ count body u rounds, b.pattern.child? node .times = some count ∧
      let value := (b.pattern.evalNode count ((t 0).context.scope params (t 0).bullet)
        (t 0).context.random).1
      let times := min (Binary32.toCount value) maxRepeat
      let task : Task := ⟨node, owner, [body], params, .repeat ⟨none, 0, room⟩, .parsed⟩
      ((∀ m e hm, value.toModel.unpack ≠ .finite .positive m e hm) → times = 0) ∧
      (t 0).tasks.get? id = some task ∧
      repeatTimes b.pattern id task ⟨none, 0, room⟩ ((t 0).start id) = .ok times u ∧
      Repeater.Completes ⟨b.pattern, fuel, id, node, owner, params, room, times⟩ m t body u
        rounds := by
  obtain ⟨count, body, X, hcount, hbound, hspans, hfit⟩ := Binder.bound_repeat hs he hb
  have hmem := hspans.mem_of_live (List.mem_singleton_self id) (Arena.contains_of_get? hbound)
  have hsound := h.sound (Nat.zero_le m)
  have hw := (evolves_runTask b.pattern (fuel + 1) id hsound).grows.noWrap
    (h.noWrap_run (Nat.zero_le m))
  have ht := (h.bound.get? hspans hmem).trans hbound
  have hstart : Starts False b.pattern (.task id) X (t 0) :=
    ⟨h.bound.spans hspans hw, hsound, h.pool 0 (Nat.zero_le m), h.bound.fit hspans hfit,
      Arena.contains_of_get? ht⟩
  let l : Repeater := ⟨b.pattern, fuel, id, node, owner, params, room,
    wanted b.pattern count params (t 0)⟩
  obtain ⟨u, hrun, hcounts⟩ : ∃ u, repeatTimes l.pattern l.id (l.asBound body) ⟨none, 0, l.room⟩
      ((t 0).start l.id) = .ok l.times u ∧ Counts l.pattern l.id (l.asBound body)
        ⟨none, 0, l.room⟩ ((t 0).start l.id) l.times u :=
    repeatTimes_of_new hcount rfl
  obtain ⟨rounds, hcompletes⟩ := Repeater.completes_of_times (l := l) h hstart ht hrun hcounts
  refine ⟨count, body, u, rounds, hcount, ?_, ht, hrun, hcompletes⟩
  intro hvalue
  rw [Binary32.toCount_of_not_positive hvalue]
  rfl

theorem sound_replay {u : Turn} (hs : u.tasks.Sound) (hp : u.pool.Sound) (f : Nat) :
    (replay p id u f).tasks.Sound ∧ (replay p id u f).pool.Sound := by
  induction f with
  | zero => exact ⟨hs, hp⟩
  | succ f ih =>
    obtain ⟨_, hadds, _⟩ := (shoots_task p maxTaskChain id _).shots ih.2
    exact ⟨(evolves_runTask p maxTaskChain id ih.1).sound, hadds.sound⟩

theorem repeatFrames_replay {u : Turn} {status : Nat → Status} (hs : u.tasks.Sound)
    (hp : u.pool.Sound) (hv : ∀ f ≤ m, (replay p id u (f + 1)).bullet.vanished = false)
    (hr : ∀ f ≤ m, (answer (runTask p maxTaskChain id (replay p id u f))).toOption =
      some (status f))
    (he : ∀ f ≤ m, status f = .ended ↔ f = m) (hw : (replay p id u (m + 1)).tasks.NoWrap) :
    RepeatFrames (runTask p maxTaskChain id) id u.tasks m (replay p id u) where
  bound := hs.idles _
  pool f _ := (sound_replay hs hp f).2
  runs f hf := by
    have hanswer := hr f hf
    have hflies := hv f hf
    rw [replay] at hflies
    cases hx : runTask p maxTaskChain id (replay p id u f) with
    | ok answered v =>
      rw [hx] at hanswer hflies
      cases hanswer
      exact ⟨_, v, rfl, hflies, he f hf⟩
    | error e v =>
      rw [hx] at hanswer
      cases hanswer
  carried f _ := (sound_replay hs hp (f + 1)).1.idles _
  noWrap := hw

end Turn

/-- A pattern that waits for a frame, twice. -/
def Pattern.beat : Pattern :=
  let p := ((ofName "beat").addNode root .action).2
  let p := (p.setLabel ⟨1⟩ "top").1
  let p := (p.addNode ⟨1⟩ .repeat).2
  let p := (p.addNode ⟨2⟩ .times).2
  let p := p.setExpr ⟨3⟩ (.const 2)
  let p := (p.addNode ⟨2⟩ .action).2
  let p := (p.addNode ⟨4⟩ .wait).2
  p.setExpr ⟨5⟩ (.const 1)

/-- A beat is over in its third frame, and in its second one a body follows another. -/
theorem Turn.beat_runs_its_count :
    let b : Binder := ⟨.beat, 0, .atRest ⟨0, 0⟩⟩
    let s : BindState := ⟨.empty, .ofSeed 0⟩
    s.tasks.Sound ∧ b.pattern.element ⟨2⟩ = .repeat ∧
    ∃ id s', b.bindNode (maxNestDepth + 1) ⟨2⟩ none [] s = .ok (some id) s' ∧
      let t := replay .beat id ⟨b.bullet, s'.tasks, .ofCapacity 0, .ofSeed 0 0, #[]⟩
      RepeatFrames (runTask .beat maxTaskChain id) id s'.tasks 2 t ∧
      ∃ body u rounds, Repeater.Completes
        ⟨.beat, maxNestDepth + 1, id, ⟨2⟩, none, [], maxNestDepth, 2⟩ 2 t body u rounds := by
  intro b s
  have helement : b.pattern.element ⟨2⟩ = .repeat := by decide +kernel
  obtain ⟨s', hb, hanswers, hflying, hwrap⟩ : ∃ s' : BindState,
      b.bindNode (maxNestDepth + 1) ⟨2⟩ none [] s = .ok (some ⟨0, 0⟩) s' ∧
      (∀ f ≤ 2, (answer (runTask .beat maxTaskChain ⟨0, 0⟩ (replay .beat ⟨0, 0⟩
        ⟨b.bullet, s'.tasks, .ofCapacity 0, .ofSeed 0 0, #[]⟩ f))).toOption =
          some (if f = 2 then .ended else .paused)) ∧
      (∀ f ≤ 2, (replay .beat ⟨0, 0⟩ ⟨b.bullet, s'.tasks, .ofCapacity 0, .ofSeed 0 0, #[]⟩
        (f + 1)).bullet.vanished = false) ∧
      (replay .beat ⟨0, 0⟩ ⟨b.bullet, s'.tasks, .ofCapacity 0, .ofSeed 0 0, #[]⟩
        3).tasks.NoWrap :=
    ⟨match b.bindNode (maxNestDepth + 1) ⟨2⟩ none [] s with
      | .ok _ s => s
      | .error _ s => s, rfl, by decide +kernel, by decide +kernel, by decide +kernel⟩
  refine ⟨Arena.sound_empty, helement, ⟨0, 0⟩, s', hb, ?_⟩
  intro t
  have hsound : s'.tasks.Sound := by
    have hbinds := b.follows_node (maxNestDepth + 1) ⟨2⟩ none [] s Arena.sound_empty
    rw [hb] at hbinds
    generalize b.expandNode _ _ _ _ = expanded at hbinds
    cases hbinds with
    | ok hr => exact hr.sound
  have hframes := repeatFrames_replay hsound (Pool.sound_ofCapacity 0) hflying hanswers
    (by decide) hwrap
  obtain ⟨count, body, u, rounds, hcount, _, _, _, hcompletes⟩ :=
    bound_repeats_run_their_count Arena.sound_empty helement hb hframes
  obtain rfl : ⟨3⟩ = count := by
    rw [show b.pattern.child? ⟨2⟩ .times = some ⟨3⟩ by decide +kernel, Option.some.injEq] at hcount
    exact hcount
  have hvalue (scope : Scope) (r : Random) : (b.pattern.evalNode ⟨3⟩ scope r).1 = 2 := rfl
  rw [hvalue, show min (Binary32.toCount 2) maxRepeat = 2 by decide +kernel] at hcompletes
  exact ⟨hframes, body, u, rounds, hcompletes⟩

end Barrage

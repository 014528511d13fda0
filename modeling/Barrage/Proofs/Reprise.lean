import Barrage.Proofs.Playback

namespace Barrage.Play

variable {move : Move} {p q : Pattern} {ρ : NodeId → NodeId → Prop} {inAction : Bool}
  {ws vs : List WorkTree} {w v : WorkTree} {σ τ : Stage} {n m : NodeId} {params : List Float32}
  {play play' : WorkTree → Play (Status × WorkTree)} {status : Status}

/-- Both play single trees that resemble each other alike. -/
def PlaysAlike (p q : Pattern) (ρ : NodeId → NodeId → Prop)
    (play play' : WorkTree → Play (Status × WorkTree)) : Prop :=
  ∀ {w v σ τ}, Resembles p q ρ false [w] [v] → σ.Matches p q ρ τ → σ.motion.vanished = false →
    Echo (Stage.Matches p q ρ)
      (fun σ x y => Likewise p q ρ false σ (x.1, [x.2]) (y.1, [y.2])) (play w σ) (play' v τ)

/-- Both play lists of trees that resemble each other alike. -/
def SequencesAlike (p q : Pattern) (ρ : NodeId → NodeId → Prop)
    (play play' : WorkTree → Play (Status × WorkTree)) : Prop :=
  ∀ {inAction ws vs σ τ} (status : Status), Resembles p q ρ inAction ws vs →
    σ.Matches p q ρ τ → σ.motion.vanished = false →
    Echo (Stage.Matches p q ρ) (Likewise p q ρ inAction) (sequence play ws status σ)
      (sequence play' vs status τ)

section Rolls

variable {times : UInt32} {body : NodeId} {st : RepeatState} {room : Nat} {tree : TaskTree}

theorem eval_apply (p : Pattern) (node : NodeId) (params : List Float32) (σ : Stage) :
    eval p node params σ =
      (let x := p.evalNode node (σ.context.scope params σ.motion.bullet) σ.context.random
      .ok x.1 { σ with context := { σ.context with random := x.2 } }) := rfl

theorem times_of_rolls (hr : p.Rolls n times body) (ht : st.times = none ∨ st.times = some times)
    (params : List Float32) : Play.times p n params st = pure times := by
  unfold Play.times
  rcases ht with ht | ht
  · obtain ⟨t, hchild, hcount⟩ := hr.count
    rw [ht, hchild]
    have heval : Binary32.toCount <$> eval p t params = pure times := by
      funext σ
      obtain ⟨v, hv, rfl⟩ := hcount (σ.context.scope params σ.motion.bullet) σ.context.random
      have hx : eval p t params σ = .ok v σ := by
        rw [eval_apply, hv]
      rw [map_of_ok hx]
      rfl
    simp only [heval, pure_bind]
    rw [if_neg (UInt32.not_lt.2 hr.limit)]
  · rw [ht]

/-- What is left of a `repeat` that has answered, and of the trees that stand for it. -/
inductive Remains (p q : Pattern) (ρ : NodeId → NodeId → Prop) (tree : TaskTree)
    (times : UInt32) : Status × UInt32 × List WorkTree → Status × List WorkTree → Prop where
  | ended {done : UInt32} {ws ds : List WorkTree} (hd : ∀ d ∈ ds, d.isFinished = true) :
      Remains p q ρ tree times (.ended, done, ws) (.ended, ds)
  | paused {done : UInt32} {w v : WorkTree} {olds news : List WorkTree}
      (hl : done.toNat + (news.length + 1) = times.toNat) (hw : w.Plain p)
      (hf : w.isFinished = false) (ho : ∀ d ∈ olds, d.isFinished = true)
      (hb : Resembles p q ρ false [w] [v])
      (hn : ∀ v ∈ news, Resembles p q ρ false [tree.fresh] [v]) :
      Remains p q ρ tree times (.paused, done, [w]) (.paused, olds ++ v :: news)

theorem Remains.push {x : Status × UInt32 × List WorkTree} {y : Status × List WorkTree}
    (h : Remains p q ρ tree times x y) {d : WorkTree} (hd : d.isFinished = true) :
    Remains p q ρ tree times x (y.1, d :: y.2) := by
  cases h with
  | ended hds => exact .ended (List.forall_mem_cons.2 ⟨hd, hds⟩)
  | paused hl hw hf ho hb hn =>
    rw [← List.cons_append]
    exact .paused hl hw hf (List.forall_mem_cons.2 ⟨hd, ho⟩) hb hn

variable {fuel fuel' : Nat} {news : List WorkTree} {done : UInt32}

/-- One body of a `repeat` is played as the tree that stands for it, if what follows it is. -/
theorem echo_body_of_rolls (h : Pattern.Recasts move p q ρ)
    (hplay : PlaysAlike p q ρ (Play.tree p fuel) (Play.tree q fuel'))
    (hx : ∀ b : Binder, b.pattern = p → b.expandBody (b.expandNode room) n params = pure tree)
    (hl : done.toNat + (news.length + 1) = times.toNat) (hw : w.Plain p)
    (hf : w.isFinished = false) (hb : Resembles p q ρ false [w] [v])
    (hn : ∀ v ∈ news, Resembles p q ρ false [tree.fresh] [v])
    (next : ∀ {σ τ}, news ≠ [] → σ.Matches p q ρ τ → σ.motion.vanished = false →
      Echo (Stage.Matches p q ρ)
        (fun σ x y => x.1 = y.1 ∧ (σ.motion.vanished = true ∨ Remains p q ρ tree times x y))
        (bodies p n params (Play.tree p fuel) room news.length (done + 1) [tree.fresh] σ)
        (sequence (Play.tree q fuel') news .ended τ))
    (hs : σ.Matches p q ρ τ) (hv : σ.motion.vanished = false) :
    Echo (Stage.Matches p q ρ)
      (fun σ x y => x.1 = y.1 ∧ (σ.motion.vanished = true ∨ Remains p q ρ tree times x y))
      (bodies p n params (Play.tree p fuel) room (news.length + 1) done [w] σ)
      (sequence (Play.tree q fuel') (v :: news) .ended τ) := by
  have hf' : v.isFinished = false := hb.isFinished.trans hf
  have hecho := hplay hb hs hv
  generalize hp : Play.tree p fuel w σ = x at hecho
  generalize hq : Play.tree q fuel' v τ = y at hecho
  cases hecho with
  | limit =>
    rw [bodies_of_error hp]
    exact .limit
  | error ha =>
    rw [bodies_of_error hp, sequence_of_error hf' hq]
    exact .error ha
  | @ok a b σ τ hs hab =>
    obtain ⟨a, w'⟩ := a
    obtain ⟨_, v'⟩ := b
    obtain ⟨rfl, hab⟩ := hab
    have hv' : τ.motion.vanished = σ.motion.vanished := congrArg Motion.vanished hs.motion
    obtain ⟨hne, hplain⟩ := plain_tree h.closed fuel hw _ _ _ hp
    cases a with
    | ongoing => exact absurd rfl hne
    | paused =>
      rw [bodies_of_hold hp nofun, sequence_of_paused hf' hq]
      refine .ok hs ⟨rfl, hab.imp_right fun hab => ?_⟩
      have hgoing : w'.isFinished = false := by
        rw [← Bool.not_eq_true, isFinished_tree hp]
        exact nofun
      exact .paused hl hplain hgoing (List.forall_mem_nil _) hab hn
    | ended =>
      have hended : v'.isFinished = true := (isFinished_tree hq).2 rfl
      cases hvanished : σ.motion.vanished with
      | true =>
        rw [bodies_of_last hp (.inr hvanished),
          sequence_of_vanished hf' hq nofun (hv'.trans hvanished)]
        exact .ok hs ⟨rfl, .inl hvanished⟩
      | false =>
        rw [sequence_of_next hf' hq nofun (hv'.trans hvanished)]
        by_cases hlast : news = []
        · rw [bodies_of_last hp (.inl (List.length_eq_zero_iff.2 hlast)), hlast]
          exact .ok hs ⟨rfl, .inr (.ended (List.forall_mem_singleton.2 hended))⟩
        · have hdue : ¬(news.length = 0 ∨ σ.motion.vanished = true) := by
            simp [hlast, hvanished]
          have hfresh : expandFor p σ.motion (fun b =>
              b.expandBody (b.expandNode room) n params) σ = .ok tree σ :=
            expandFor_of_ok (congrFun (hx _ rfl) σ.context.random)
          rw [bodies_of_due hp hdue, hfresh]
          refine (next hlast hs hvanished).map_right ?_
          rintro x ⟨b, ds⟩ σ ⟨he, hrest⟩
          exact ⟨he, hrest.imp_right fun hrest => hrest.push hended⟩

/-- The bodies of a `repeat` are played as the trees that stand for them: the current one, and then
those that are as each new one is. -/
theorem echo_bodies_of_rolls (h : Pattern.Recasts move p q ρ)
    (hplay : PlaysAlike p q ρ (Play.tree p fuel) (Play.tree q fuel'))
    (hx : ∀ b : Binder, b.pattern = p → b.expandBody (b.expandNode room) n params = pure tree)
    (hplain : tree.fresh.Plain p) (hl : done.toNat + (news.length + 1) = times.toNat)
    (hw : w.Plain p) (hf : w.isFinished = false) (hb : Resembles p q ρ false [w] [v])
    (hn : ∀ v ∈ news, Resembles p q ρ false [tree.fresh] [v]) (hs : σ.Matches p q ρ τ)
    (hv : σ.motion.vanished = false) :
    Echo (Stage.Matches p q ρ)
      (fun σ x y => x.1 = y.1 ∧ (σ.motion.vanished = true ∨ Remains p q ρ tree times x y))
      (bodies p n params (Play.tree p fuel) room (news.length + 1) done [w] σ)
      (sequence (Play.tree q fuel') (v :: news) .ended τ) := by
  induction news generalizing done w v σ τ with
  | nil =>
    apply echo_body_of_rolls h hplay hx hl hw hf hb hn _ hs hv
    intro σ τ hne
    exact absurd rfl hne
  | cons d news ih =>
    apply echo_body_of_rolls h hplay hx hl hw hf hb hn _ hs hv
    intro σ τ _ hs hv
    obtain ⟨hhead, htail⟩ := List.forall_mem_cons.1 hn
    have hmore : done < times := by
      rw [List.length_cons] at hl
      exact UInt32.lt_iff_toNat_lt.2 (by omega)
    have hdone := toNat_next hmore
    apply ih _ hplain tree.isFinished_fresh hhead htail hs hv
    rw [hdone, ← hl, List.length_cons]
    omega

end Rolls

section Segment

variable {params : List Float32} {ph : Phase} {fuel fuel' : Nat} {ds : List WorkTree}

/-- A tree and what stands for it are played alike. -/
def Covers (p q : Pattern) (ρ : NodeId → NodeId → Prop) (σ τ : Stage)
    (play play' : WorkTree → Play (Status × WorkTree)) (w : WorkTree) (ds : List WorkTree) : Prop :=
  Echo (Stage.Matches p q ρ) (fun σ x y => Likewise p q ρ true σ (x.1, [x.2]) y) (play w σ)
    (sequence play' ds .ended τ)

theorem Likewise.of_ended (hw : w.isFinished = true) (hd : ∀ d ∈ ds, d.isFinished = true) :
    Likewise p q ρ true σ (.ended, [w]) (.ended, ds) := by
  refine ⟨rfl, .inr ?_⟩
  rw [← List.append_nil ds]
  exact .spent hw hd .nil

theorem tree_succ {k : TaskKind} {below : List WorkTree} (hp : ph ≠ .finished) :
    Play.tree p (fuel + 1) (.node n params k ph below) = (do
      let x ← kind p (Play.tree p fuel) n params below k
      pure (x.1, .node n params x.2.1 (phase ph x.1) x.2.2)) := by
  rw [Play.tree, if_neg (by simpa using hp)]

theorem isFinished_ended (n : NodeId) (params : List Float32) (k : TaskKind) (ph : Phase)
    (below : List WorkTree) : (WorkTree.node n params k (phase ph .ended) below).isFinished := by
  rw [phase_ended]
  rfl

theorem covers_dissolved {below : List WorkTree}
    (hplay : SequencesAlike p q ρ (Play.tree p fuel) (Play.tree q fuel')) (hp : ph ≠ .finished)
    (hb : Resembles p q ρ true below ds) (hs : σ.Matches p q ρ τ)
    (hv : σ.motion.vanished = false) :
    Covers p q ρ σ τ (Play.tree p (fuel + 1)) (Play.tree q fuel')
      (.node n params .action ph below) ds := by
  have hecho := hplay .ended hb hs hv
  unfold Covers
  rw [tree_succ hp, kind, bind_assoc]
  generalize hx : sequence (Play.tree p fuel) below .ended σ = x at hecho
  generalize hy : sequence (Play.tree q fuel') ds .ended τ = y at hecho
  cases hecho with
  | limit =>
    rw [bind_of_error hx]
    exact .limit
  | error hs =>
    rw [bind_of_error hx]
    exact .error hs
  | @ok x y σ τ hs hxy =>
    obtain ⟨a, below'⟩ := x
    obtain ⟨_, ds'⟩ := y
    obtain ⟨rfl, hxy⟩ := hxy
    rw [bind_of_ok hx]
    have hv' : τ.motion.vanished = σ.motion.vanished := congrArg Motion.vanished hs.motion
    by_cases ha : a = .ended
    · subst ha
      cases hvanished : σ.motion.vanished with
      | true => exact .ok hs ⟨rfl, .inl hvanished⟩
      | false =>
        have hall := all_finished_of_ended (fun h => (isFinished_tree h).2 rfl) hy
          (hv'.trans hvanished)
        exact .ok hs (.of_ended (isFinished_ended ..) hall.2)
    · refine .ok hs ⟨rfl, hxy.imp_right fun hxy => ?_⟩
      simp only
      rw [← List.append_nil ds']
      exact .dissolve (phase_of_going hp ha) hxy .nil

variable {times : UInt32} {body : NodeId} {st : RepeatState} {tree : TaskTree}

theorem tree_of_rolls {below : List WorkTree} (hr : p.Rolls n times body) (hp : ph ≠ .finished)
    (ht : st.times = none ∨ st.times = some times) :
    Play.tree p (fuel + 1) (.node n params (.repeat st) ph below) = (do
      let x ← bodies p n params (Play.tree p fuel) st.room (times.toNat - st.done.toNat) st.done
        below
      pure (x.1, .node n params (.repeat { st with times := some times, done := x.2.1 })
        (phase ph x.1) x.2.2)) := by
  rw [tree_succ hp, kind, times_of_rolls hr ht, pure_bind, bind_assoc]
  rfl

theorem covers_idle {below : List WorkTree} (hr : p.Rolls n 0 body) (hp : ph ≠ .finished)
    (ht : st.times = none ∨ st.times = some 0) (hs : σ.Matches p q ρ τ) :
    Covers p q ρ σ τ (Play.tree p (fuel + 1)) play' (.node n params (.repeat st) ph below) [] := by
  unfold Covers
  rw [tree_of_rolls hr hp ht, UInt32.toNat_zero, Nat.zero_sub, bodies]
  exact .ok hs (.of_ended (isFinished_ended ..) (List.forall_mem_nil _))

theorem covers_unrolled {olds news : List WorkTree} (h : Pattern.Recasts move p q ρ)
    (hplay : PlaysAlike p q ρ (Play.tree p fuel) (Play.tree q fuel')) (hr : p.Rolls n times body)
    (hp : ph ≠ .finished) (ht : st.times = none ∨ st.times = some times)
    (hx : ∀ b : Binder, b.pattern = p → b.expandBody (b.expandNode st.room) n params = pure tree)
    (hl : st.done.toNat + (news.length + 1) = times.toNat) (hw : w.Plain p)
    (hf : w.isFinished = false) (ho : ∀ d ∈ olds, d.isFinished = true)
    (hb : Resembles p q ρ false [w] [v])
    (hn : ∀ v ∈ news, Resembles p q ρ false [tree.fresh] [v]) (hs : σ.Matches p q ρ τ)
    (hv : σ.motion.vanished = false) :
    Covers p q ρ σ τ (Play.tree p (fuel + 1)) (Play.tree q fuel')
      (.node n params (.repeat st) ph [w]) (olds ++ v :: news) := by
  have hplain : tree.fresh.Plain p := by
    have hsame := Binder.inert_body (b := ⟨p, σ.context.rank, σ.motion.bullet⟩) rfl rfl
      (Binder.settles_node rfl rfl h.closed st.room) hr.element hr.settled_self params
      σ.context.random σ.context.random
    rw [hx _ rfl] at hsame
    cases hsame with
    | ok hq => exact hq
  have hcount : times.toNat - st.done.toNat = news.length + 1 := by omega
  unfold Covers
  rw [tree_of_rolls hr hp ht, hcount, sequence_of_finished_append ho]
  refine (echo_bodies_of_rolls h hplay hx hplain hl hw hf hb hn hs hv).bind ?_
  rintro ⟨a, done, below⟩ ⟨_, ds⟩ σ τ hs ⟨rfl, hrest⟩
  apply Echo.ok hs
  rcases hrest with hvanished | hrest
  · exact ⟨rfl, .inl hvanished⟩
  · cases hrest with
    | ended hd =>
      apply Likewise.of_ended (isFinished_ended ..)
      intro d hm
      rcases List.mem_append.1 hm with hm | hm
      · exact ho d hm
      · exact hd d hm
    | @paused _ w v olds' news hl hw hf ho' hb hn =>
      refine ⟨rfl, .inr ?_⟩
      have hall : ∀ d ∈ olds ++ olds', d.isFinished = true := by
        intro d hm
        rcases List.mem_append.1 hm with hm | hm
        · exact ho d hm
        · exact ho' d hm
      have hgoing : phase ph .paused ≠ .finished := phase_of_going hp nofun
      simp only
      rw [← List.append_assoc, ← List.append_nil (olds ++ olds' ++ v :: news)]
      exact .unroll hr hgoing (.inr rfl) hx hl hw hf hall hb hn .nil

/-- Where a tree and what stands for it are played alike, so are the lists that begin with them. -/
theorem Covers.cons {status : Status} (hc : Covers p q ρ σ τ play play' w ds)
    (hf : w.isFinished = false) (hs : σ.Matches p q ρ τ) (hv : σ.motion.vanished = false)
    (hw : Resembles p q ρ true ws vs)
    (rest : ∀ {σ τ} (status : Status), σ.Matches p q ρ τ → σ.motion.vanished = false →
      Echo (Stage.Matches p q ρ) (Likewise p q ρ true) (sequence play ws status σ)
        (sequence play' vs status τ)) :
    Echo (Stage.Matches p q ρ) (Likewise p q ρ true) (sequence play (w :: ws) status σ)
      (sequence play' (ds ++ vs) status τ) := by
  have hended : Status.ended ≠ .paused := nofun
  have hv' : τ.motion.vanished = false := (congrArg Motion.vanished hs.motion).trans hv
  have hsplit : sequence play' (ds ++ vs) status τ =
      (sequence play' ds .ended >>= followAll play' vs status) τ := sequence_append hended hv'
  rw [sequence_of_unfinished hf, hsplit]
  refine Echo.bind hc ?_
  intro x y σ τ hs hxy
  rw [follow_eq]
  exact echo_followAll hxy hs hw rest

end Segment

section Sequence

variable {fuel fuel' : Nat}

/-- Lists are played alike if single trees are, and those below them. -/
theorem sequencesAlike (h : Pattern.Recasts move p q ρ)
    (hplay : PlaysAlike p q ρ (Play.tree p fuel) (Play.tree q fuel'))
    (hbelow : ∀ g, fuel = g + 1 → PlaysAlike p q ρ (Play.tree p g) (Play.tree q fuel') ∧
      SequencesAlike p q ρ (Play.tree p g) (Play.tree q fuel')) :
    SequencesAlike p q ρ (Play.tree p fuel) (Play.tree q fuel') := by
  have covers {σ τ : Stage} {w : WorkTree} {ds : List WorkTree}
      (hc : ∀ g, fuel = g + 1 →
        Covers p q ρ σ τ (Play.tree p (g + 1)) (Play.tree q fuel') w ds) :
      Covers p q ρ σ τ (Play.tree p fuel) (Play.tree q fuel') w ds := by
    cases fuel with
    | zero => exact .limit
    | succ g => exact hc g rfl
  have unfinished {n : NodeId} {params : List Float32} {k : TaskKind} {ph : Phase}
      {below : List WorkTree} (hp : ph ≠ .finished) :
      (WorkTree.node n params k ph below).isFinished = false := beq_eq_false_iff_ne.2 hp
  intro inAction ws vs σ τ status hw hs hv
  induction hw generalizing status σ τ with
  | nil => exact .ok hs ⟨rfl, .inr .nil⟩
  | @keep _ _ _ _ _ _ ph _ _ _ _ hn hk hb hw _ ih =>
    by_cases hp : ph = .finished
    · subst hp
      rw [sequence_of_finished rfl, sequence_of_finished rfl]
      refine (ih status hs hv).bind ?_
      rintro ⟨a, ws'⟩ ⟨_, vs'⟩ σ τ hs ⟨rfl, hrest⟩
      exact .ok hs ⟨rfl, hrest.imp_right (.keep hn hk hb)⟩
    · rw [sequence_of_unfinished (unfinished hp), sequence_of_unfinished (unfinished hp)]
      refine (hplay (.keep hn hk hb .nil) hs hv).bind ?_
      rintro x y σ τ hs ⟨hxy, hrest⟩
      rw [follow_eq, follow_eq]
      exact echo_followAll ⟨hxy, hrest.imp_right fun hrest => hrest.lift _⟩ hs hw ih
  | spent hf hd _ ih =>
    rw [sequence_of_finished hf, sequence_of_finished_append hd]
    refine (ih status hs hv).bind ?_
    rintro ⟨a, ws'⟩ ⟨_, vs'⟩ σ τ hs ⟨rfl, hrest⟩
    exact .ok hs ⟨rfl, hrest.imp_right (.spent hf hd)⟩
  | dissolve hp hb hw _ ih =>
    refine (covers fun g hg => ?_).cons (unfinished hp) hs hv hw ih
    exact covers_dissolved (hbelow g hg).2 hp hb hs hv
  | @idle _ _ _ _ _ _ _ vs hr hp ht hw ih =>
    rw [← List.nil_append vs]
    refine (covers fun g _ => ?_).cons (unfinished hp) hs hv hw ih
    exact covers_idle hr hp ht hs
  | unroll hr hp ht hx hl hw hf ho hb hn hs' _ _ ih =>
    refine (covers fun g hg => ?_).cons (unfinished hp) hs hv hs' ih
    exact covers_unrolled h (hbelow g hg).1 hr hp ht hx hl hw hf ho hb hn hs hv

end Sequence

section Tree

variable {fuel fuel' room room' left : Nat} {st : RepeatState} {below below' : List WorkTree}
  {k k' : TaskKind}

variable (h : Pattern.Recasts move p q ρ)

include h

theorem echo_times {st' : RepeatState} (hr : ρ n m) (he : p.element n = .repeat)
    (ht : st'.times = st.times) (params : List Float32) (hs : σ.Matches p q ρ τ) :
    Echo (Stage.Matches p q ρ) (fun σ' a b => σ'.motion = σ.motion ∧ a = b)
      (times p n params st σ) (times q m params st' τ) := by
  unfold times
  rw [ht]
  cases st.times with
  | some k => exact .ok hs ⟨rfl, rfl⟩
  | none =>
    have hne : p.element n ≠ .action := he.trans_ne nofun
    have htimes := h.child? hr hne .times
    simp only
    generalize p.child? n .times = x at htimes ⊢
    generalize q.child? m .times = y at htimes ⊢
    cases htimes with
    | none => exact .ok hs ⟨rfl, rfl⟩
    | some hcd =>
      have count := (echo_eval h hcd params hs).map (k := Binary32.toCount)
        (l := Binary32.toCount) (R := fun σ' a b => σ'.motion = σ.motion ∧ a = b)
        fun _ _ _ he => ⟨he.1, congrArg _ he.2⟩
      refine count.bind ?_
      rintro k _ σ τ hs ⟨hmotion, rfl⟩
      exact .ok hs ⟨hmotion, rfl⟩

theorem echo_bodies (hplay : PlaysAlike p q ρ play play') (hr : ρ n m)
    (he : p.element n = .repeat) (hl : room ≤ room') (params : List Float32) (left : Nat)
    (done : UInt32) (hw : Resembles p q ρ false ws vs) (hs : σ.Matches p q ρ τ)
    (hv : σ.motion.vanished = false) :
    Echo (Stage.Matches p q ρ) (fun σ x y => x.1 = y.1 ∧ x.2.1 = y.2.1 ∧
        (σ.motion.vanished = true ∨ Resembles p q ρ false x.2.2 y.2.2))
      (bodies p n params play room left done ws σ)
      (bodies q m params play' room' left done vs τ) := by
  induction left generalizing done ws vs σ τ with
  | zero => exact .ok hs ⟨rfl, rfl, .inr .nil⟩
  | succ left ih =>
    cases ws with
    | nil =>
      cases hw
      exact .ok hs ⟨rfl, rfl, .inr .nil⟩
    | cons w ws =>
      obtain ⟨v, vs, rfl, hhead, -⟩ := hw.single
      rw [bodies_succ, bodies_succ]
      refine (hplay hhead hs hv).bind ?_
      rintro ⟨a, w'⟩ ⟨_, v'⟩ σ τ hs ⟨rfl, hrest⟩
      unfold succeed
      simp only
      split
      · rw [isVanished_bind, isVanished_bind, hs.motion]
        split
        · exact .ok hs ⟨rfl, rfl, .inr .nil⟩
        · rename_i hdue
          have hv : σ.motion.vanished = false := by
            rw [Bool.or_eq_true, not_or] at hdue
            exact Bool.eq_false_iff.2 hdue.2
          apply Echo.read
          rw [hs.motion]
          refine (echo_expandFor (fun _ r =>
            Binder.echo_body h (Binder.echo_node h hl) hr he params r) hs).bind ?_
          intro tree tree' σ τ hs ⟨hmotion, ht⟩
          exact ih (done + 1) ht hs (by rw [hmotion, hv])
      · exact .ok hs ⟨rfl, rfl, hrest⟩

/-- Tasks that resemble each other answer alike, and what they become does so too. -/
theorem echo_kind (hplay : PlaysAlike p q ρ play play') (hall : SequencesAlike p q ρ play play')
    (hr : ρ n m) (hk : k.Resembles p ρ n k') (hb : Resembles p q ρ k.isAction below below')
    (params : List Float32) (hs : σ.Matches p q ρ τ) (hv : σ.motion.vanished = false) :
    Echo (Stage.Matches p q ρ) (fun σ x y => x.1 = y.1 ∧ (σ.motion.vanished = true ∨
        x.2.1.Resembles p ρ n y.2.1 ∧ Resembles p q ρ x.2.1.isAction x.2.2 y.2.2))
      (kind p play n params below k σ) (kind q play' m params below' k' τ) := by
  -- A task that only steers keeps what is below it.
  have alone {x y : Play (Status × TaskKind)} (hb : Resembles p q ρ false below below')
      (hx : Echo (Stage.Matches p q ρ) (fun _ x y => x.1 = y.1 ∧ x.2.Resembles p ρ n y.2) (x σ)
        (y τ)) :
      Echo (Stage.Matches p q ρ) (fun σ x y => x.1 = y.1 ∧ (σ.motion.vanished = true ∨
          x.2.1.Resembles p ρ n y.2.1 ∧ Resembles p q ρ x.2.1.isAction x.2.2 y.2.2))
        ((do let x ← x; pure (x.1, x.2, below) : Play (Status × TaskKind × List WorkTree)) σ)
        ((do let y ← y; pure (y.1, y.2, below') : Play (Status × TaskKind × List WorkTree)) τ) := by
    refine hx.bind ?_
    rintro ⟨a, k⟩ ⟨_, k'⟩ σ τ hs ⟨rfl, hk⟩
    exact .ok hs ⟨rfl, .inr ⟨hk, hb.lift _⟩⟩
  cases hk with
  | action =>
    refine (hall .ended hb hs hv).bind ?_
    rintro ⟨a, ws⟩ ⟨_, vs⟩ σ τ hs ⟨rfl, hrest⟩
    exact .ok hs ⟨rfl, hrest.imp_right fun hrest => ⟨.action, hrest⟩⟩
  | bullet =>
    refine (hall .ended hb hs hv).bind ?_
    rintro ⟨a, ws⟩ ⟨_, vs⟩ σ τ hs ⟨rfl, hrest⟩
    exact .ok hs ⟨rfl, hrest.imp_right fun hrest => ⟨.bullet, hrest⟩⟩
  | @«repeat» wanted done room room' he hl =>
    refine (echo_times h hr he rfl params hs).bind ?_
    rintro times _ σ τ hs ⟨hmotion, rfl⟩
    refine (echo_bodies h hplay hr he hl params _ done hb hs (by rw [hmotion, hv])).bind ?_
    rintro ⟨a, done, ws⟩ ⟨_, _, vs⟩ σ τ hs ⟨rfl, rfl, hrest⟩
    exact .ok hs ⟨rfl, hrest.imp_right fun hrest => ⟨.repeat he hl, hrest⟩⟩
  | @fire st st' hne hshot hd hspeed =>
    have hk : (TaskKind.fire st).Resembles p ρ n (.fire st') := .fire hne hshot hd hspeed
    refine (echo_fire h hk hb params hs).bind ?_
    intro _ _ σ τ hs _
    exact .ok hs ⟨rfl, .inr ⟨hk, hb⟩⟩
  | changeDirection hvalue hterm =>
    exact alone hb (echo_changeDirection h hvalue hterm params _ hs)
  | changeSpeed hvalue hterm => exact alone hb (echo_changeSpeed h hvalue hterm params _ hs)
  | accel hx hy hterm => exact alone hb (echo_accel h hx hy hterm params _ hs)
  | wait => exact alone hb (echo_wait h hr params _ hs)
  | vanish =>
    refine (echo_modifyMotion _ hs).bind ?_
    intro _ _ σ τ hs _
    exact .ok hs ⟨rfl, .inr ⟨.vanish, hb⟩⟩

theorem playsAlike_succ (hplay : PlaysAlike p q ρ (tree p fuel) (tree q fuel'))
    (hall : SequencesAlike p q ρ (tree p fuel) (tree q fuel')) :
    PlaysAlike p q ρ (tree p (fuel + 1)) (tree q (fuel' + 1)) := by
  intro w v σ τ hw hs hv
  cases hw with
  | @keep _ n m params k k' ph below below' _ _ hn hk hb _ =>
    by_cases hp : ph = .finished
    · subst hp
      exact .ok hs ⟨rfl, .inr (.keep hn hk hb .nil)⟩
    · rw [tree_succ hp, tree_succ hp]
      refine (echo_kind h hplay hall hn hk hb params hs hv).bind ?_
      rintro ⟨a, k, ws⟩ ⟨_, k', vs⟩ σ τ hs ⟨rfl, hrest⟩
      exact .ok hs ⟨rfl, hrest.imp_right fun hrest => .keep hn hrest.1 hrest.2 .nil⟩

/-- Trees that resemble each other are played alike, if the second one has no less fuel. -/
theorem plays_alike (hf : fuel ≤ fuel') : PlaysAlike p q ρ (tree p fuel) (tree q fuel') ∧
    SequencesAlike p q ρ (tree p fuel) (tree q fuel') := by
  induction fuel generalizing fuel' with
  | zero =>
    have hplay : PlaysAlike p q ρ (tree p 0) (tree q fuel') := fun _ _ _ => .limit
    exact ⟨hplay, sequencesAlike h hplay nofun⟩
  | succ fuel ih =>
    obtain ⟨fuel', rfl⟩ := Nat.exists_eq_add_of_le' (Nat.le_trans (Nat.le_add_left 1 fuel) hf)
    obtain ⟨hplay, hall⟩ := ih (Nat.le_of_succ_le_succ hf)
    have hplay : PlaysAlike p q ρ (tree p (fuel + 1)) (tree q (fuel' + 1)) :=
      playsAlike_succ h hplay hall
    refine ⟨hplay, sequencesAlike h hplay fun g hg => ?_⟩
    cases hg
    exact ih (Nat.le_of_succ_le hf)

/-- The trees of a bullet are played alike. -/
theorem echo_roots (hw : Resembles p q ρ false ws vs) (hs : σ.Matches p q ρ τ)
    (hv : σ.motion.vanished = false) :
    Echo (Stage.Matches p q ρ)
      (fun σ x y => σ.motion.vanished = true ∨ Resembles p q ρ false x y) (roots p ws σ)
      (roots q vs τ) := by
  induction ws generalizing vs σ τ with
  | nil =>
    cases hw
    exact .ok hs (.inr .nil)
  | cons w ws ih =>
    obtain ⟨v, vs, rfl, hhead, htail⟩ := hw.single
    refine ((plays_alike h (Nat.le_refl maxTaskChain)).1 hhead hs hv).bind ?_
    rintro ⟨a, w'⟩ ⟨_, v'⟩ σ τ hs ⟨rfl, hrest⟩
    have hremains (hrest : Resembles p q ρ false [w'] [v']) :
        Resembles p q ρ false (remains a w') (remains a v') := by
      unfold remains
      split
      · exact .nil
      · exact hrest
    simp only
    rw [isVanished_bind, isVanished_bind, hs.motion]
    cases hv : σ.motion.vanished with
    | true => exact .ok hs (.inl hv)
    | false =>
      have hrest := hrest.resolve_left (by rw [hv]; exact nofun)
      refine (ih htail hs hv).bind ?_
      intro ws' vs' σ τ hs hws
      exact .ok hs (hws.imp_right fun hws => (hremains hrest).append hws)

end Tree

end Barrage.Play

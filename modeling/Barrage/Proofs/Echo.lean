import Barrage.Proofs.Recast

namespace Barrage

/-- Two runs go alike: both succeed, and `Q` holds of their answers, or both fail, and `A` holds of
the states in which they leave things. Nothing is said where the first one lacks levels. -/
inductive Echo {σ τ α β : Type} (A : σ → τ → Prop) (Q : σ → α → β → Prop) :
    EStateM.Result PatternError σ α → EStateM.Result PatternError τ β → Prop where
  | ok {a : α} {b : β} {s : σ} {t : τ} (ha : A s t) (hq : Q s a b) : Echo A Q (.ok a s) (.ok b t)
  | error {e e' : PatternError} {s : σ} {t : τ} (ha : A s t) : Echo A Q (.error e s) (.error e' t)
  | limit {n : Nat} {s : σ} {y : EStateM.Result PatternError τ β} :
      Echo A Q (.error (.recursionLimit n) s) y

namespace Echo

variable {σ τ α β γ δ : Type} {A : σ → τ → Prop} {Q Q' : σ → α → β → Prop} {R : σ → γ → δ → Prop}
  {x : EStateM PatternError σ α} {y : EStateM PatternError τ β}
  {f : α → EStateM PatternError σ γ} {g : β → EStateM PatternError τ δ} {s : σ} {t : τ}

theorem bind (h : Echo A Q (x s) (y t))
    (hf : ∀ a b s t, A s t → Q s a b → Echo A R (f a s) (g b t)) :
    Echo A R ((x >>= f) s) ((y >>= g) t) := by
  generalize hx : x s = u at h
  generalize hy : y t = v at h
  cases h with
  | ok ha hq =>
    rw [bind_of_ok hx, bind_of_ok hy]
    exact hf _ _ _ _ ha hq
  | error ha =>
    rw [bind_of_error hx, bind_of_error hy]
    exact .error ha
  | limit =>
    rw [bind_of_error hx]
    exact .limit

theorem map {k : α → γ} {l : β → δ} (h : Echo A Q (x s) (y t))
    (hk : ∀ a b s, Q s a b → R s (k a) (l b)) : Echo A R ((k <$> x) s) ((l <$> y) t) := by
  rw [map_eq_pure_bind, map_eq_pure_bind]
  exact h.bind fun a b s t ha hq => .ok ha (hk a b s hq)

theorem read {f : σ → EStateM PatternError σ γ} {g : τ → EStateM PatternError τ δ}
    (h : Echo A R (f s s) (g t t)) : Echo A R ((get >>= f) s) ((get >>= g) t) := h

/-- A run that draws on what both have in common echoes itself. -/
theorem self (x : EStateM PatternError σ α) (s : σ) :
    Echo Eq (fun _ a b => a = b) (x s) (x s) := by
  cases x s with
  | ok a s' => exact .ok rfl rfl
  | error e s' => exact .error rfl

/-- Only what the second run answers is changed. -/
theorem map_right {u : EStateM.Result PatternError σ α} {Q' : σ → α → δ → Prop} {l : β → δ}
    (h : Echo A Q u (y t)) (hl : ∀ a b s, Q s a b → Q' s a (l b)) :
    Echo A Q' u ((do let b ← y; pure (l b)) t) := by
  generalize hy : y t = v at h
  cases h with
  | ok ha hq =>
    rw [bind_of_ok hy]
    exact .ok ha (hl _ _ _ hq)
  | error ha =>
    rw [bind_of_error hy]
    exact .error ha
  | limit => exact .limit

theorem imp {u : EStateM.Result PatternError σ α} {v : EStateM.Result PatternError τ β}
    (h : Echo A Q u v) (hq : ∀ a b s, Q s a b → Q' s a b) : Echo A Q' u v := by
  cases h with
  | ok ha h => exact .ok ha (hq _ _ _ h)
  | error ha => exact .error ha
  | limit => exact .limit

end Echo

def TaskKind.isAction : TaskKind → Bool
  | .action => true
  | _ => false

/-- The kinds are those of corresponding nodes, and have come equally far. The second one may have
more levels left for its bodies. -/
inductive TaskKind.Resembles (p : Pattern) (ρ : NodeId → NodeId → Prop) (n : NodeId) :
    TaskKind → TaskKind → Prop where
  | action : Resembles p ρ n .action .action
  | bullet : Resembles p ρ n .bullet .bullet
  | repeat {times : Option UInt32} {done : UInt32} {room room' : Nat}
      (he : p.element n = .repeat) (hr : room ≤ room') :
      Resembles p ρ n (.repeat ⟨times, done, room⟩) (.repeat ⟨times, done, room'⟩)
  | fire {st st' : FireState} (he : p.element st.bullet ≠ .action) (hb : ρ st.bullet st'.bullet)
      (hd : Option.Rel (fun s s' => s'.fromBullet = s.fromBullet ∧ ρ s.node s'.node)
        st.direction st'.direction)
      (hs : Option.Rel (fun s s' => s'.fromBullet = s.fromBullet ∧ ρ s.node s'.node)
        st.speed st'.speed) : Resembles p ρ n (.fire st) (.fire st')
  | changeDirection {value value' term term' : NodeId} {ramp : Option (Ramp Float32)}
      (hv : ρ value value') (ht : ρ term term') :
      Resembles p ρ n (.changeDirection ⟨value, term, ramp⟩)
        (.changeDirection ⟨value', term', ramp⟩)
  | changeSpeed {value value' term term' : NodeId} {ramp : Option (Ramp Float32)}
      (hv : ρ value value') (ht : ρ term term') :
      Resembles p ρ n (.changeSpeed ⟨value, term, ramp⟩) (.changeSpeed ⟨value', term', ramp⟩)
  | accel {x x' y y' : Option NodeId} {term term' : NodeId} {ramp : Option (Ramp Point)}
      (hx : Option.Rel ρ x x') (hy : Option.Rel ρ y y') (ht : ρ term term') :
      Resembles p ρ n (.accel ⟨x, y, term, ramp⟩) (.accel ⟨x', y', term', ramp⟩)
  | wait {remaining : Option UInt32} : Resembles p ρ n (.wait remaining) (.wait remaining)
  | vanish : Resembles p ρ n .vanish .vanish

/-- The second trees are at work as the first ones are: each as one of a corresponding node, or, in
an action, some as one in whose place they stand. Those that stand for one that has finished have
finished too. For a `repeat`, those before the current body have finished, and those behind it are
as the body is that will be bound each time. -/
inductive Resembles (p q : Pattern) (ρ : NodeId → NodeId → Prop) :
    (inAction : Bool) → List WorkTree → List WorkTree → Prop where
  | nil {inAction : Bool} : Resembles p q ρ inAction [] []
  | keep {inAction : Bool} {n m : NodeId} {params : List Float32} {k k' : TaskKind} {ph : Phase}
      {below below' ws vs : List WorkTree} (hn : ρ n m) (hk : k.Resembles p ρ n k')
      (hb : Resembles p q ρ k.isAction below below') (hs : Resembles p q ρ inAction ws vs) :
      Resembles p q ρ inAction (.node n params k ph below :: ws) (.node m params k' ph below' :: vs)
  | spent {w : WorkTree} {ws ds vs : List WorkTree} (hw : w.isFinished = true)
      (hd : ∀ d ∈ ds, d.isFinished = true) (hs : Resembles p q ρ true ws vs) :
      Resembles p q ρ true (w :: ws) (ds ++ vs)
  | dissolve {n : NodeId} {params : List Float32} {ph : Phase} {below ds ws vs : List WorkTree}
      (hp : ph ≠ .finished) (hb : Resembles p q ρ true below ds)
      (hs : Resembles p q ρ true ws vs) :
      Resembles p q ρ true (.node n params .action ph below :: ws) (ds ++ vs)
  | idle {n body : NodeId} {params : List Float32} {st : RepeatState} {ph : Phase}
      {below ws vs : List WorkTree} (hr : p.Rolls n 0 body) (hp : ph ≠ .finished)
      (ht : st.times = none ∨ st.times = some 0) (hs : Resembles p q ρ true ws vs) :
      Resembles p q ρ true (.node n params (.repeat st) ph below :: ws) vs
  | unroll {n body : NodeId} {times : UInt32} {params : List Float32} {st : RepeatState}
      {ph : Phase} {tree : TaskTree} {w w' : WorkTree} {olds news ws vs : List WorkTree}
      (hr : p.Rolls n times body) (hp : ph ≠ .finished)
      (ht : st.times = none ∨ st.times = some times)
      (hx : ∀ b : Binder, b.pattern = p →
        b.expandBody (b.expandNode st.room) n params = pure tree)
      (hl : st.done.toNat + (news.length + 1) = times.toNat) (hw : w.Plain p)
      (hf : w.isFinished = false) (ho : ∀ d ∈ olds, d.isFinished = true) (hb : Resembles p q ρ false [w] [w'])
      (hn : ∀ v ∈ news, Resembles p q ρ false [tree.fresh] [v])
      (hs : Resembles p q ρ true ws vs) :
      Resembles p q ρ true (.node n params (.repeat st) ph [w] :: ws) (olds ++ w' :: news ++ vs)

variable {move : Move} {p q : Pattern} {ρ : NodeId → NodeId → Prop} {inAction : Bool}
  {ws vs : List WorkTree} {w v : WorkTree}

theorem Resembles.cons (h : Resembles p q ρ false [w] [v]) (hs : Resembles p q ρ inAction ws vs) :
    Resembles p q ρ inAction (w :: ws) (v :: vs) := by
  cases h with
  | keep hn hk hb => exact .keep hn hk hb hs

theorem Resembles.single (h : Resembles p q ρ false (w :: ws) vs) :
    ∃ v rest, vs = v :: rest ∧ Resembles p q ρ false [w] [v] ∧ Resembles p q ρ false ws rest := by
  cases h with
  | keep hn hk hb hs => exact ⟨_, _, rfl, .keep hn hk hb .nil, hs⟩

theorem Resembles.isFinished (h : Resembles p q ρ false [w] [v]) :
    v.isFinished = w.isFinished := by
  cases h with
  | keep => rfl

theorem TaskTree.isFinished_fresh (tree : TaskTree) : tree.fresh.isFinished = false := by
  cases tree
  rfl

theorem TaskTree.freshAll_append (ts us : List TaskTree) :
    freshAll (ts ++ us) = freshAll ts ++ freshAll us := by
  rw [freshAll_eq, freshAll_eq, freshAll_eq, List.map_append]

namespace Binder
open Expansion

variable {rank : Float32} {bullet : Bullet} {child child' : NodeExpander} {n m : NodeId}
  {params : List Float32} {room room' : Nat} {r : Random}

theorem expandNode_action (b : Binder) (room : Nat) (params : List Float32)
    (he : b.pattern.element n = .action) : b.expandNode (room + 1) n params =
      some <$> b.expandAction (b.expandNode room) n params := by
  rw [expandNode_succ, expandOver, he]

theorem expandNode_repeat (b : Binder) (room : Nat) (params : List Float32)
    (he : b.pattern.element n = .repeat) : b.expandNode (room + 1) n params =
      some <$> b.expandRepeat room (b.expandNode room) n params := by
  rw [expandNode_succ, expandOver, he]

theorem expandChildren_append (cs ds : List NodeId) :
    expandChildren child params (cs ++ ds) = (do
      let ts ← expandChildren child params cs
      let us ← expandChildren child params ds
      pure (ts ++ us)) := by
  induction cs with
  | nil =>
    rw [List.nil_append, expandChildren, pure_bind]
    exact (bind_pure _).symm
  | cons c cs ih =>
    rw [List.cons_append, expandChildren, ih, expandChildren]
    simp only [bind_assoc, pure_bind, List.append_assoc]

/-- Trees that stand for nothing but each other. -/
def Alike (p q : Pattern) (ρ : NodeId → NodeId → Prop) (tree tree' : TaskTree) : Prop :=
  Resembles p q ρ false [tree.fresh] [tree'.fresh]

/-- Both expand corresponding nodes alike. -/
def Echoes (p q : Pattern) (ρ : NodeId → NodeId → Prop) (child child' : NodeExpander) : Prop :=
  ∀ n m params r, ρ n m → Echo Eq (fun _ => Option.Rel (Alike p q ρ)) (child n params r)
    (child' m params r)

theorem alike_of_kind {k k' : TaskKind} {below below' : List TaskTree} (hn : ρ n m)
    (hk : k.Resembles p ρ n k')
    (hb : Resembles p q ρ k.isAction (TaskTree.freshAll below) (TaskTree.freshAll below')) :
    Alike p q ρ (.node n params k below) (.node m params k' below') :=
  .keep hn hk hb .nil

section Rolls

variable {times : UInt32} {body : NodeId} {ds : List NodeId}

/-- The body of a `repeat` that always runs it as often is bound to the same plain tree each time,
or fails in the same way. -/
theorem expandBody_of_rolls (hp : p.Closed) (hr : p.Rolls n times body) (room : Nat)
    (params : List Float32) (rank : Float32) (bullet : Bullet) (r : Random) :
    (∃ tree, tree.fresh.Plain p ∧
      (⟨p, rank, bullet⟩ : Binder).expandNode room body params r = .ok (some tree) r ∧
      ∀ b : Binder, b.pattern = p → b.expandBody (b.expandNode room) n params = pure tree) ∨
    ∃ e, (⟨p, rank, bullet⟩ : Binder).expandNode room body params r = .error e r ∧
      (⟨p, rank, bullet⟩ : Binder).expandBody ((⟨p, rank, bullet⟩ : Binder).expandNode room) n
        params r = .error e r := by
  have hok {b : Binder} (hb : b.pattern = p) {tree : TaskTree} {r' : Random}
      (hx : b.expandNode room body params r' = .ok (some tree) r') :
      b.expandBody (b.expandNode room) n params r' = .ok tree r' := by
    rw [expandBody, hb, hr.inline]
    exact bind_of_ok hx
  have herror {b : Binder} (hb : b.pattern = p) {e : PatternError} {r' : Random}
      (hx : b.expandNode room body params r' = .error e r') :
      b.expandBody (b.expandNode room) n params r' = .error e r' := by
    rw [expandBody, hb, hr.inline]
    exact bind_of_error hx
  have hsame (b : Binder) (hb : b.pattern = p) (r' : Random) := settles_node
    (b := ⟨p, rank, bullet⟩) rfl hb hp room body params hr.settled r r'
  have hself := hsame ⟨p, rank, bullet⟩ rfl r
  generalize hx : (⟨p, rank, bullet⟩ : Binder).expandNode room body params r = x at hself hsame
  cases hself with
  | error => exact .inr ⟨_, rfl, herror rfl hx⟩
  | @ok found hq =>
    cases found with
    | none =>
      -- An action always gives a task.
      cases room with
      | zero => cases hx
      | succ room =>
        rw [expandNode_action _ room params hr.body_action] at hx
        generalize hy : expandAction _ _ _ _ r = y at hx
        cases y with
        | ok tree r' =>
          rw [map_of_ok hy] at hx
          cases hx
        | error e r' =>
          rw [map_of_error hy] at hx
          cases hx
    | some tree =>
      refine .inl ⟨tree, hq tree rfl, rfl, ?_⟩
      intro b hb
      funext r'
      have hb' := hsame b hb r'
      generalize hy : b.expandNode room body params r' = y at hb'
      cases hb' with
      | ok => exact hok hb hy

theorem echo_copies {tree : TaskTree} (hc : Echoes p q ρ child child') (hd : ∀ d ∈ ds, ρ body d)
    (hx : child body params r = .ok (some tree) r) :
    ∃ ts, expandChildren child' params ds r = .ok ts r ∧ ts.length = ds.length ∧
      ∀ t ∈ ts, Alike p q ρ tree t := by
  induction ds with
  | nil => exact ⟨[], rfl, rfl, List.forall_mem_nil _⟩
  | cons d ds ih =>
    obtain ⟨hhead, htail⟩ := List.forall_mem_cons.1 hd
    obtain ⟨ts, hts, hlength, halike⟩ := ih htail
    have hecho := hc body d params r hhead
    rw [hx] at hecho
    generalize hy : child' d params r = y at hecho
    cases hecho with
    | ok he hq =>
      subst he
      cases hq with
      | @some _ t ht =>
        refine ⟨t :: ts, ?_, ?_, List.forall_mem_cons.2 ⟨ht, halike⟩⟩
        · rw [expandChildren, bind_of_ok hy, bind_of_ok hts]
          rfl
        · rw [List.length_cons, List.length_cons, hlength]

/-- A `repeat` is expanded as the copies of its body that stand for it. -/
theorem echo_rolls (h : Pattern.Recasts move p q ρ) (hr : p.Rolls n times body)
    (hl : ds.length = times.toNat) (hd : ∀ d ∈ ds, ρ body d)
    (hc : Echoes p q ρ ((⟨p, rank, bullet⟩ : Binder).expandNode room) child')
    (params : List Float32) (r : Random) :
    Echo Eq (fun _ tree ts => ∀ {ws vs}, Resembles p q ρ true ws vs →
        Resembles p q ρ true (tree.fresh :: ws) (TaskTree.freshAll ts ++ vs))
      ((⟨p, rank, bullet⟩ : Binder).expandRepeat room
        ((⟨p, rank, bullet⟩ : Binder).expandNode room) n params r)
      (expandChildren child' params ds r) := by
  obtain ⟨t, ht, -⟩ := hr.count
  have htimes : p.required n .times = .ok t := by rw [Pattern.required, ht]
  have hrepeat : (⟨p, rank, bullet⟩ : Binder).expandRepeat room
      ((⟨p, rank, bullet⟩ : Binder).expandNode room) n params = (do
        let body ← (⟨p, rank, bullet⟩ : Binder).expandBody
          ((⟨p, rank, bullet⟩ : Binder).expandNode room) n params
        pure (.node n params (.repeat ⟨none, 0, room⟩) [body])) := by
    rw [expandRepeat, htimes]
    rfl
  rw [hrepeat]
  rcases expandBody_of_rolls h.closed hr room params rank bullet r with
    ⟨tree, hplain, hx, hall⟩ | ⟨e, hx, hall⟩
  · obtain ⟨ts, hts, hlength, halike⟩ := echo_copies hc hd hx
    rw [hall _ rfl, hts]
    refine .ok rfl ?_
    intro ws vs hs
    cases ts with
    | nil =>
      obtain rfl : times = 0 := by
        rw [← UInt32.toNat_inj, ← hl, ← hlength]
        rfl
      exact .idle hr (by decide) (.inl rfl) hs
    | cons t ts =>
      obtain ⟨hhead, htail⟩ := List.forall_mem_cons.1 halike
      have hcount : (0 : UInt32).toNat + ((TaskTree.freshAll ts).length + 1) = times.toNat := by
        rw [TaskTree.freshAll_eq, List.length_map, ← hl, ← hlength, List.length_cons,
          UInt32.toNat_zero, Nat.zero_add]
      have hnone : ∀ d ∈ ([] : List WorkTree), d.isFinished = true := List.forall_mem_nil _
      have hphase : Phase.parsed ≠ .finished := by decide
      have hstart : (⟨none, 0, room⟩ : RepeatState).times = none ∨ none = some times := .inl rfl
      refine .unroll hr hphase hstart hall hcount hplain tree.isFinished_fresh hnone hhead ?_ hs
      intro v hv
      rw [TaskTree.freshAll_eq] at hv
      obtain ⟨t', ht', rfl⟩ := List.mem_map.1 hv
      exact htail t' ht'
  · rw [bind_of_error hall]
    cases ds with
    | nil =>
      have hzero : times = 0 := by
        rw [← UInt32.toNat_inj, ← hl]
        rfl
      -- Nothing binds the body on the other side, so it must not fail for another reason.
      have hyields := expands_node (g := True) (b := ⟨p, rank, bullet⟩) (fun _ => h.closed) room
        body params (fun _ => h.closed.child? hr.inline) r
      rw [hx] at hyields
      rw [(hyields trivial).of_valid (hr.empty hzero)]
      exact .limit
    | cons d ds =>
      have hecho := hc body d params r (List.forall_mem_cons.1 hd).1
      rw [hx] at hecho
      generalize hy : child' d params r = y at hecho
      cases hecho with
      | error he =>
        subst he
        rw [expandChildren, bind_of_error hy]
        exact .error rfl
      | limit => exact .limit

end Rolls

section Node

variable (h : Pattern.Recasts move p q ρ)

include h

/-- Children are expanded as those that stand for them. -/
theorem echo_children {cs ds : List NodeId}
    (hc : ∀ k ≤ room, ∀ k' ≥ k, Echoes p q ρ ((⟨p, rank, bullet⟩ : Binder).expandNode k)
      ((⟨q, rank, bullet⟩ : Binder).expandNode k'))
    (ha : Pattern.Aligned move p q ρ inAction cs ds) (hl : room ≤ room') (params : List Float32)
    (r : Random) :
    Echo Eq (fun _ ts us => Resembles p q ρ inAction (TaskTree.freshAll ts) (TaskTree.freshAll us))
      (expandChildren ((⟨p, rank, bullet⟩ : Binder).expandNode room) params cs r)
      (expandChildren ((⟨q, rank, bullet⟩ : Binder).expandNode room') params ds r) := by
  induction ha generalizing room room' r with
  | nil => exact .ok rfl .nil
  | keep hcd _ ih =>
    refine (hc room (Nat.le_refl _) room' hl _ _ params r hcd).bind ?_
    rintro _ _ r _ rfl hq
    refine (ih hc hl r).bind ?_
    rintro ts us r _ rfl hs
    apply Echo.ok rfl
    cases hq with
    | some ht => exact ht.cons hs
    | none => exact hs
  | @dissolve c cs ds es _ he _ _ ih ih' =>
    rw [expandChildren_append]
    cases room with
    | zero => exact .limit
    | succ room =>
      rw [expandChildren, expandNode_action _ room params he]
      have hle : room ≤ room' := Nat.le_of_succ_le hl
      have hinner := ih (fun k hk => hc k (Nat.le_succ_of_le hk)) hle r
      have haction : Echo Eq (fun _ tree us => ∃ ts, tree = some (.node c params .action ts) ∧
          Resembles p q ρ true (TaskTree.freshAll ts) (TaskTree.freshAll us))
          ((some <$> (⟨p, rank, bullet⟩ : Binder).expandAction
            ((⟨p, rank, bullet⟩ : Binder).expandNode room) c params) r)
          (expandChildren ((⟨q, rank, bullet⟩ : Binder).expandNode room') params ds r) := by
        rw [← bind_pure (expandChildren _ params ds), map_eq_pure_bind, expandAction, bind_assoc]
        refine hinner.bind ?_
        rintro ts us r _ rfl hs
        exact .ok rfl ⟨ts, rfl, hs⟩
      refine haction.bind ?_
      rintro _ us r _ rfl ⟨ts, rfl, hs⟩
      refine (ih' hc hl r).bind ?_
      rintro ts' us' r _ rfl hs'
      apply Echo.ok rfl
      rw [TaskTree.freshAll_append us]
      have hphase : Phase.parsed ≠ .finished := by decide
      exact .dissolve hphase hs hs'
  | @unroll c body times cs ds es _ hr hlength hd _ ih =>
    rw [expandChildren_append]
    cases room with
    | zero => exact .limit
    | succ room =>
      rw [expandChildren, expandNode_repeat _ room params hr.element]
      have hle : room ≤ room' := Nat.le_of_succ_le hl
      have hcopies := echo_rolls h hr hlength hd (hc room (Nat.le_succ room) room' hle) params r
      rw [map_eq_pure_bind, bind_assoc]
      refine hcopies.bind ?_
      rintro tree us r _ rfl hs
      rw [pure_bind]
      refine (ih hc hl r).bind ?_
      rintro ts' us' r _ rfl hs'
      apply Echo.ok rfl
      rw [TaskTree.freshAll_append us]
      exact hs hs'

theorem passed_eq (hr : ρ n m) (hne : p.element n ≠ .action) (params : List Float32) :
    (⟨q, rank, bullet⟩ : Binder).passed m params =
      (⟨p, rank, bullet⟩ : Binder).passed n params := by
  funext r
  simp only [passed, h.evalNodes (h.childrenNamed hr hne .param)]

omit h in
theorem echo_require {found found' : Except PatternError NodeId}
    (hf : (∃ c d, found = .ok c ∧ found' = .ok d ∧ ρ c d) ∨
      ∃ e e', found = .error e ∧ found' = .error e') (r : Random) :
    Echo Eq (fun _ c d => found = .ok c ∧ ρ c d) (require found r) (require found' r) := by
  rcases hf with ⟨c, d, rfl, rfl, hcd⟩ | ⟨e, e', rfl, rfl⟩
  · exact .ok rfl ⟨rfl, hcd⟩
  · exact .error rfl

theorem echo_action
    (hc : ∀ k ≤ room, ∀ k' ≥ k, Echoes p q ρ ((⟨p, rank, bullet⟩ : Binder).expandNode k)
      ((⟨q, rank, bullet⟩ : Binder).expandNode k'))
    (hl : room ≤ room') (hr : ρ n m) (he : p.element n = .action) (params : List Float32)
    (r : Random) :
    Echo Eq (fun _ => Alike p q ρ)
      ((⟨p, rank, bullet⟩ : Binder).expandAction ((⟨p, rank, bullet⟩ : Binder).expandNode room) n
        params r)
      ((⟨q, rank, bullet⟩ : Binder).expandAction ((⟨q, rank, bullet⟩ : Binder).expandNode room') m
        params r) := by
  have haligned := h.children n m hr
  rw [he] at haligned
  refine (echo_children h hc haligned hl params r).bind ?_
  rintro ts us r _ rfl hs
  exact .ok rfl (alike_of_kind hr .action hs)

theorem echo_body (hc : Echoes p q ρ child child') (hr : ρ n m) (he : p.element n = .repeat)
    (params : List Float32) (r : Random) :
    Echo Eq (fun _ => Alike p q ρ) ((⟨p, rank, bullet⟩ : Binder).expandBody child n params r)
      ((⟨q, rank, bullet⟩ : Binder).expandBody child' m params r) := by
  have hne : p.element n ≠ .action := he.trans_ne nofun
  have hbody : Option.Rel ρ (p.child? n .action <|> p.child? n .actionRef)
      (q.child? m .action <|> q.child? m .actionRef) := by
    have haction := h.child? hr hne .action
    generalize p.child? n .action = x at haction ⊢
    generalize q.child? m .action = y at haction ⊢
    cases haction with
    | some hcd => exact .some hcd
    | none => exact h.child? hr hne .actionRef
  unfold expandBody
  generalize (p.child? n .action <|> p.child? n .actionRef) = x at hbody ⊢
  generalize (q.child? m .action <|> q.child? m .actionRef) = y at hbody ⊢
  cases hbody with
  | none => exact .error rfl
  | some hcd =>
    refine (hc _ _ params r hcd).bind ?_
    rintro _ _ r _ rfl hq
    cases hq with
    | some ht => exact .ok rfl ht
    | none => exact .error rfl

theorem echo_repeat (hc : Echoes p q ρ child child') (hl : room ≤ room') (hr : ρ n m)
    (he : p.element n = .repeat) (params : List Float32) (r : Random) :
    Echo Eq (fun _ => Alike p q ρ)
      ((⟨p, rank, bullet⟩ : Binder).expandRepeat room child n params r)
      ((⟨q, rank, bullet⟩ : Binder).expandRepeat room' child' m params r) := by
  have hne : p.element n ≠ .action := he.trans_ne nofun
  refine (echo_require (h.required hr hne .times) r).bind ?_
  rintro _ _ r _ rfl -
  refine (echo_body h hc hr he params r).bind ?_
  rintro tree tree' r _ rfl ht
  exact .ok rfl (alike_of_kind hr (.repeat he hl) ht)

theorem echo_bullet (hr : ρ n m) (he : p.element n = .fire) (params : List Float32) (r : Random) :
    Echo Eq (fun _ x y => ρ x.1 y.1 ∧ x.2 = y.2 ∧ p.element x.1 = .bullet)
      ((⟨p, rank, bullet⟩ : Binder).expandBullet n params r)
      ((⟨q, rank, bullet⟩ : Binder).expandBullet m params r) := by
  have hne : p.element n ≠ .action := he.trans_ne nofun
  unfold expandBullet
  have hbullet := h.child? hr hne .bullet
  have href := h.child? hr hne .bulletRef
  simp only
  generalize hx : p.child? n .bullet = x at hbullet ⊢
  generalize q.child? m .bullet = y at hbullet ⊢
  cases hbullet with
  | some hcd => exact .ok rfl ⟨hcd, rfl, (Pattern.child?_mem hx).2⟩
  | none =>
    simp only
    generalize hx' : p.child? n .bulletRef = x at href ⊢
    generalize q.child? m .bulletRef = y at href ⊢
    cases href with
    | none => exact .error rfl
    | @some ref ref' hcd =>
      have hkind : p.element ref = .bulletRef := (Pattern.child?_mem hx').2
      have htarget : (p.element ref).refTarget? = some .bullet := by
        rw [hkind]
        rfl
      have hne : p.element ref ≠ .action := hkind.trans_ne nofun
      refine (echo_require (h.resolve hcd (htarget.trans_ne nofun)) r).bind ?_
      rintro c d r _ rfl ⟨hresolve, hbullet⟩
      rw [passed_eq h hcd hne params]
      refine (Echo.self _ r).bind ?_
      rintro ps _ r _ rfl rfl
      exact .ok rfl ⟨hbullet, rfl, (h.closed.resolve htarget hresolve).2⟩

theorem locate_rel {fire fire' shot shot' : NodeId} (hf : ρ fire fire')
    (hfire : p.element fire ≠ .action) (hs : ρ shot shot') (hshot : p.element shot ≠ .action)
    (e : Element) :
    Option.Rel (fun s s' : ValueSource => s'.fromBullet = s.fromBullet ∧ ρ s.node s'.node)
      ((⟨p, rank, bullet⟩ : Binder).locate fire shot e)
      ((⟨q, rank, bullet⟩ : Binder).locate fire' shot' e) := by
  unfold locate
  have hown := h.child? hf hfire e
  have hits := h.child? hs hshot e
  simp only
  generalize p.child? fire e = x at hown ⊢
  generalize q.child? fire' e = y at hown ⊢
  cases hown with
  | some hcd => exact .some ⟨rfl, hcd⟩
  | none =>
    simp only
    generalize p.child? shot e = x at hits ⊢
    generalize q.child? shot' e = y at hits ⊢
    cases hits with
    | some hcd => exact .some ⟨rfl, hcd⟩
    | none => exact .none

theorem echo_fire (hr : ρ n m) (he : p.element n = .fire) (params : List Float32) (r : Random) :
    Echo Eq (fun _ => Alike p q ρ) ((⟨p, rank, bullet⟩ : Binder).expandFire n params r)
      ((⟨q, rank, bullet⟩ : Binder).expandFire m params r) := by
  have hne : p.element n ≠ .action := he.trans_ne nofun
  refine (echo_bullet h hr he params r).bind ?_
  rintro ⟨shot, ps⟩ ⟨shot', _⟩ r _ rfl ⟨hshot, rfl, hkind⟩
  have hne' : p.element shot ≠ .action := hkind.trans_ne nofun
  apply Echo.ok rfl
  apply alike_of_kind hr
  · exact .fire hne' hshot (locate_rel h hr hne hshot hne' .direction)
      (locate_rel h hr hne hshot hne' .speed)
  · exact .keep hshot .bullet .nil .nil

theorem echo_fireRef (hl : room ≤ room') (hr : ρ n m) (he : p.element n = .fireRef)
    (params : List Float32) (r : Random) :
    Echo Eq (fun _ => Alike p q ρ) ((⟨p, rank, bullet⟩ : Binder).expandFireRef room n params r)
      ((⟨q, rank, bullet⟩ : Binder).expandFireRef room' m params r) := by
  have hne : p.element n ≠ .action := he.trans_ne nofun
  have htarget : (p.element n).refTarget? = some .fire := by
    rw [he]
    rfl
  refine (echo_require (h.resolve hr (htarget.trans_ne nofun)) r).bind ?_
  rintro fire fire' r _ rfl ⟨hresolve, hfire⟩
  rw [passed_eq h hr hne params]
  refine (Echo.self _ r).bind ?_
  rintro ps _ r _ rfl rfl
  by_cases h0 : room = 0
  · subst h0
    exact .limit
  · have h0' : room' ≠ 0 := by omega
    simp only [beq_iff_eq, h0, h0', if_false]
    exact echo_fire h hfire (h.closed.resolve htarget hresolve).2 ps r

theorem echo_change {kind : ChangeState → TaskKind} {value : Element}
    (hk : ∀ {v v' t t'}, ρ v v' → ρ t t' →
      (kind ⟨v, t, none⟩).Resembles p ρ n (kind ⟨v', t', none⟩))
    (ha : ∀ st, (kind st).isAction = false) (hr : ρ n m) (hne : p.element n ≠ .action)
    (params : List Float32) (r : Random) :
    Echo Eq (fun _ => Alike p q ρ) ((⟨p, rank, bullet⟩ : Binder).expandChange kind value n params r)
      ((⟨q, rank, bullet⟩ : Binder).expandChange kind value m params r) := by
  refine (echo_require (h.required hr hne value) r).bind ?_
  rintro v v' r _ rfl ⟨-, hv⟩
  refine (echo_require (h.required hr hne .term) r).bind ?_
  rintro t t' r _ rfl ⟨-, ht⟩
  apply Echo.ok rfl
  apply alike_of_kind hr (hk hv ht)
  rw [ha]
  exact .nil

theorem echo_accel (hr : ρ n m) (hne : p.element n ≠ .action) (params : List Float32)
    (r : Random) :
    Echo Eq (fun _ => Alike p q ρ) ((⟨p, rank, bullet⟩ : Binder).expandAccel n params r)
      ((⟨q, rank, bullet⟩ : Binder).expandAccel m params r) := by
  refine (echo_require (h.required hr hne .term) r).bind ?_
  rintro t t' r _ rfl ⟨-, ht⟩
  exact .ok rfl (alike_of_kind hr
    (.accel (h.child? hr hne .horizontal) (h.child? hr hne .vertical) ht) .nil)

/-- Corresponding nodes are expanded alike, if the second one has no fewer levels left. -/
theorem echo_node (hl : room ≤ room') :
    Echoes p q ρ ((⟨p, rank, bullet⟩ : Binder).expandNode room)
      ((⟨q, rank, bullet⟩ : Binder).expandNode room') := by
  induction room using Nat.strong_induction_on generalizing room' with
  | _ room ih =>
    intro n m params r hr
    cases room with
    | zero => exact .limit
    | succ room =>
      obtain ⟨room', rfl⟩ := Nat.exists_eq_add_of_le' (Nat.le_trans (Nat.le_add_left 1 room) hl)
      have hl : room ≤ room' := Nat.le_of_succ_le_succ hl
      have hc (k : Nat) (hk : k ≤ room) (k' : Nat) (hk' : k' ≥ k) := ih k (by omega) hk'
      have some {x y : Expansion TaskTree} (hx : Echo Eq (fun _ => Alike p q ρ) (x r) (y r)) :
          Echo Eq (fun _ => Option.Rel (Alike p q ρ)) ((some <$> x) r) ((some <$> y) r) :=
        hx.map fun _ _ _ ht => .some ht
      rw [expandNode_succ, expandNode_succ, expandOver, expandOver]
      simp only [h.element n m hr]
      cases he : p.element n with
      | action => exact some (echo_action h hc hl hr he params r)
      | actionRef =>
        have hne : p.element n ≠ .action := he.trans_ne nofun
        have htarget : (p.element n).refTarget? = .some .action := by
          rw [he]
          rfl
        refine (echo_require (h.resolve hr (htarget.trans_ne nofun)) r).bind ?_
        rintro c d r _ rfl ⟨hresolve, hcd⟩
        rw [passed_eq h hr hne params]
        refine (Echo.self _ r).bind ?_
        rintro ps _ r _ rfl rfl
        exact Echo.map (echo_action h (fun k hk => hc k (by omega)) (by omega) hcd
          (h.closed.resolve htarget hresolve).2 ps r) fun _ _ _ ht => .some ht
      | fire => exact some (echo_fire h hr he params r)
      | fireRef => exact some (echo_fireRef h hl hr he params r)
      | «repeat» =>
        exact some (echo_repeat h (hc room (Nat.le_refl _) room' hl) hl hr he params r)
      | wait => exact .ok rfl (.some (alike_of_kind hr .wait .nil))
      | vanish => exact .ok rfl (.some (alike_of_kind hr .vanish .nil))
      | changeDirection =>
        exact some (echo_change h .changeDirection (fun _ => rfl) hr (he.trans_ne nofun)
          params r)
      | changeSpeed =>
        exact some (echo_change h .changeSpeed (fun _ => rfl) hr (he.trans_ne nofun) params r)
      | accel => exact some (echo_accel h hr (he.trans_ne nofun) params r)
      | _ => exact .ok rfl .none

/-- Corresponding roots of a bullet are expanded alike. -/
theorem echo_roots {cs ds : List NodeId} (hs : List.Forall₂ ρ cs ds) (rank : Float32)
    (bullet : Bullet) (params : List Float32) (r : Random) :
    Echo Eq (fun _ ts us => Resembles p q ρ false (TaskTree.freshAll ts) (TaskTree.freshAll us))
      (expandChildren ((⟨p, rank, bullet⟩ : Binder).expandNode (maxNestDepth + 1)) params cs r)
      (expandChildren ((⟨q, rank, bullet⟩ : Binder).expandNode (maxNestDepth + 1)) params ds r) :=
  echo_children h (fun _ _ _ hk => echo_node h hk) (Pattern.aligned_of_forall₂ hs)
    (Nat.le_refl _) params r

end Node

end Binder
end Barrage

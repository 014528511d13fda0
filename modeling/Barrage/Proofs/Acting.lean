import Barrage.Proofs.Portrayal
import Barrage.Proofs.Roots

namespace Barrage

namespace Turn

variable {p : Pattern} {t t' t₁ : Turn} {σ σ' σ₁ : Stage} {kept roots rest : List TaskId}
  {root : TaskId} {X X' N : Finset TaskId} {shots : List Bullet} {ws vs : List WorkTree}
  {w : WorkTree} {r : EStateM.Result PatternError Stage (List WorkTree)}

/-- The roots of a bullet have run as the trees that they show were played, after those that show
`vs`; a fault leaves none of them. Only a fault is told, as the last thing. -/
inductive Closes (p : Pattern) (t : Turn) (σ : Stage) (vs : List WorkTree) (t' : Turn) :
    EStateM.Result PatternError Stage (List WorkTree) → Prop where
  | ok {ws : List WorkTree} {σ' : Stage} (hs : t'.tasks.Shows t'.bullet.tasks (vs ++ ws))
      (he : Enacts t σ t' σ') (hn : Notice.Added Notice.IsClamp t.notices t'.notices) :
      Closes p t σ vs t' (.ok ws σ')
  | error {e : PatternError} {σ' : Stage} {told : Array Notice} (hb : t'.bullet.tasks = [])
      (he : Enacts t σ t' σ') (hn : Notice.Added Notice.IsClamp t.notices told)
      (hl : t'.notices = told.push (.bulletStopped p.name t'.bullet.id e)) :
      Closes p t σ vs t' (.error e σ')

/-- What was fired before is left alone by the roots that are still to run. -/
theorem Closes.prepend (h : Closes p t₁ σ₁ vs t' r) (he : Enacts t σ t₁ σ₁)
    (hn : Notice.Added Notice.IsClamp t.notices t₁.notices)
    (hf : Fires t t₁ X X' N shots) {Y : Finset TaskId} {more : List Bullet}
    (ha : t₁.pool.Adds t'.pool more) (hr : t₁.tasks.Replaces t'.tasks X' Y)
    (hw : t'.tasks.NoWrap) : Closes p t σ vs t' r := by
  cases h with
  | ok hs he' hn' => exact .ok hs (he.trans he' hf ha hr hf.apart hw) (hn.trans hn')
  | error hb he' hn' hl =>
    exact .error hb (he.trans he' hf ha hr hf.apart hw) (hn.trans hn') hl

theorem Poised.ranRoots (h : Poised False p (kept ++ roots) X t)
    (hw : (runRoots p kept roots t).tasks.NoWrap) :
    ∃ X' N shots, Ends False p t (runRoots p kept roots t) X X' N shots := by
  obtain ⟨calls, hr⟩ := runsRoots_runRoots p kept roots t
  obtain ⟨X', N, shots, he, _⟩ := hr.outcome nofun h hw
  exact ⟨X', N, shots, he⟩

/-- One root of a bullet has run, and the others show what they did. -/
structure Stepped (p : Pattern) (kept : List TaskId) (root : TaskId) (rest : List TaskId)
    (vs ws : List WorkTree) (t t₁ : Turn) (X Xr Xs N : Finset TaskId) (shots : List Bullet) :
    Prop where
  ends : Ends False p t t₁ X (Xr ∪ Xs) N shots
  roots : t₁.bullet.tasks = kept ++ root :: rest
  root : t₁.tasks.Spans [root] Xr
  others : t₁.tasks.Spans (kept ++ rest) Xs
  apart : Disjoint Xr Xs
  kept : t₁.tasks.Shows kept vs
  rest : t₁.tasks.Shows rest ws
  notices : Notice.Added Notice.IsClamp t.notices t₁.notices

theorem Poised.stepped {status : Status} (h : Poised False p (kept ++ root :: rest) X t)
    (hk : t.tasks.Shows kept vs) (hs : t.tasks.Shows rest ws)
    (hr : runTask p maxTaskChain root t = .ok status t₁) (hw : t₁.tasks.NoWrap) :
    ∃ Xr Xs N shots, Stepped p kept root rest vs ws t t₁ X Xr Xs N shots := by
  obtain ⟨calls, hrun⟩ := runs_task p maxTaskChain root t
  rw [hr] at hrun
  obtain ⟨Xr, Xs, rfl, hd, hstart, hothers⟩ := h.starts
  obtain ⟨Xr', N, shots, ho⟩ := hrun.outcome nofun hstart hw
  have hrep : t.tasks.Replaces t₁.tasks Xr (Xr' ∪ N) := ho.leaves.replaces
  have hlive : ∀ k ∈ Xs, t.tasks.contains k = true := fun k hk => hothers.contains hk
  have hperm : (root :: (kept ++ rest)).Perm (kept ++ root :: rest) := List.perm_middle.symm
  have hleaves : Leaves False (Succeeds (.ok status)) p t t₁ _ _ _ N shots :=
    ho.leaves.frame hothers hd hperm hw
  obtain ⟨Xk, Xt, hXk, hXt, _, rfl⟩ := hothers.of_append
  have hd' := Finset.disjoint_union_right.1 hd
  exact ⟨Xr', _, N, shots, h.after hleaves ⟨_, rfl⟩, hleaves.keeps.tasks.trans h.roots,
    ho.leaves.spans, hothers.apart hrep hd hw,
    (Finset.disjoint_union_left.1 (hrep.disjoint hlive hd)).1, hk.apart hXk hrep hd'.1 hw,
    hs.apart hXt hrep hd'.2 hw, hleaves.keeps.notices⟩

theorem Stepped.dismiss {Xr Xs : Finset TaskId}
    (h : Stepped p kept root rest vs ws t t₁ X Xr Xs N shots) (he : Enacts t σ t₁ σ₁)
    (hw : (t₁.dismiss root (kept ++ rest)).tasks.NoWrap) :
    Ends False p t (t₁.dismiss root (kept ++ rest)) X Xs N shots ∧
      Enacts t σ (t₁.dismiss root (kept ++ rest)) σ₁ ∧
      (t₁.dismiss root (kept ++ rest)).tasks.Shows kept vs ∧
      (t₁.dismiss root (kept ++ rest)).tasks.Shows rest ws := by
  have hpoised := h.ends.poised
  rw [h.roots] at hpoised
  have hdrop := hpoised.dismiss h.root h.others h.apart
  have hends := h.ends.trans hdrop hw
  rw [Finset.union_empty, List.append_nil] at hends
  have hrep := hdrop.replaces
  rw [Finset.union_empty] at hrep
  have hrel := h.root.release hpoised.tasks
  obtain ⟨Xk, Xt, hXk, hXt, _, rfl⟩ := h.others.of_append
  have hd := Finset.disjoint_union_right.1 h.apart
  exact ⟨hends, he.settle h.ends.toFires hrep rfl
    ⟨he.depicts.motion, he.depicts.context, he.depicts.room⟩ rfl hw,
    h.kept.outlive hXk hrel hd.1, h.rest.outlive hXt hrel hd.2⟩

theorem Closes.map {us : List WorkTree} {x : Play (List WorkTree)}
    (h : Closes p t σ (vs ++ us) t' (x σ₁)) :
    Closes p t σ vs t' ((do let rest ← x; pure (us ++ rest)) σ₁) := by
  generalize hx : x σ₁ = y at h
  cases h with
  | ok hs he hn =>
    rw [bind_of_ok hx]
    rw [List.append_assoc] at hs
    exact .ok hs he hn
  | error hb he hn hl =>
    rw [bind_of_error hx]
    exact .error hb he hn hl

/-- A fault lets all roots of a bullet go. -/
theorem closes_abort {e : PatternError} (h : Poised False p (kept ++ root :: rest) X t)
    (hr : runTask p maxTaskChain root t = .error e t₁) (he : Enacts t σ t₁ σ₁)
    (hw : (t₁.abort p (kept ++ root :: rest) e).tasks.NoWrap) :
    Closes p t σ vs (t₁.abort p (kept ++ root :: rest) e) (.error e σ₁) := by
  obtain ⟨calls, hrun⟩ := runs_task p maxTaskChain root t
  rw [hr] at hrun
  have hevolves : t₁.tasks.Evolves (t₁.abort p (kept ++ root :: rest) e).tasks :=
    evolves_releaseAll (hrun.evolves h.tasks).sound _
  obtain ⟨_, _, _, _, hl, _⟩ := h.ran hrun nofun (hevolves.grows.noWrap hw)
  refine .error rfl ?_ hl.keeps.notices rfl
  exact he.settle hl.toFires (hl.spans.releaseAll hl.replaces.sound) rfl
    ⟨he.depicts.motion, he.depicts.context, he.depicts.room⟩ rfl hw

/-- The roots that are still to run go on from where the one before them has left off. -/
theorem Ends.next {us : List WorkTree} (h : Ends False p t t₁ X X' N shots)
    (hp : Poised False p (kept ++ roots) X' t₁) (he : Enacts t σ t₁ σ₁)
    (hn : Notice.Added Notice.IsClamp t.notices t₁.notices)
    (hw : (runRoots p kept roots t₁).tasks.NoWrap)
    (hc : Closes p t₁ σ₁ (vs ++ us) (runRoots p kept roots t₁) (Play.roots p ws σ₁)) :
    Closes p t σ vs (runRoots p kept roots t₁)
      ((do let rest ← Play.roots p ws; pure (us ++ rest)) σ₁) := by
  obtain ⟨_, _, _, hends⟩ := hp.ranRoots hw
  exact (hc.prepend he hn h.toFires hends.adds hends.replaces hw).map

theorem noWrap_of_runRoots {status : Status} (hs : t.tasks.Sound)
    (hr : runTask p maxTaskChain root t = .ok status t₁)
    (hw : (runRoots p kept (root :: rest) t).tasks.NoWrap) : t₁.tasks.NoWrap := by
  have hrun := evolves_runTask p maxTaskChain root hs
  rw [hr] at hrun
  by_cases he : status = .ended
  · subst he
    rw [runRoots_of_ended hr] at hw
    have hrel : t₁.tasks.Evolves (t₁.dismiss root (kept ++ rest)).tasks :=
      hrun.sound.evolves_release
    split at hw
    · exact hrel.grows.noWrap hw
    · exact (hrel.bind (evolves_runRoots p kept rest)).grows.noWrap hw
  · rw [runRoots_of_stays hr he] at hw
    split at hw
    · exact hw
    · exact (evolves_runRoots p (kept ++ [root]) rest hrun.sound).grows.noWrap hw

/-- The roots of a bullet run as the trees that they show play. -/
theorem closes_runRoots (h : Poised False p (kept ++ roots) X t) (hk : t.tasks.Shows kept vs)
    (hs : t.tasks.Shows roots ws) (hd : σ.Depicts t)
    (hw : (runRoots p kept roots t).tasks.NoWrap) :
    Closes p t σ vs (runRoots p kept roots t) (Play.roots p ws σ) := by
  induction roots generalizing kept t σ vs ws X with
  | nil =>
    cases hs
    have hroots := h.roots
    rw [List.append_nil] at hroots
    refine .ok ?_ (.refl hd) (.refl _)
    rw [runRoots, List.append_nil, hroots]
    exact hk
  | cons root rest ih =>
    obtain ⟨task, ht⟩ := Arena.contains_iff.1 (h.live root (by simp))
    obtain ⟨below, ws, rfl, hbelow, hrest⟩ := hs.of_live ht
    obtain ⟨Xr, Xs, rfl, _, hstart, _⟩ := h.starts
    have hperf (hw₁ : (state (runTask p maxTaskChain root t)).tasks.NoWrap) :=
      portrays p maxTaskChain root t Xr _ σ hstart (.single ht hbelow) hd hw₁
    generalize hpl : Play.tree p maxTaskChain _ σ = played at hperf
    cases hr : runTask p maxTaskChain root t with
    | error e t₁ =>
      have hrun := evolves_runTask p maxTaskChain root h.tasks
      rw [hr] at hperf hrun
      rw [runRoots_of_error hr] at hw ⊢
      cases hperf ((evolves_releaseAll hrun.sound (kept ++ root :: rest)).grows.noWrap hw) with
      | error he =>
        rw [Play.roots_of_error hpl]
        exact closes_abort h hr he hw
    | ok status t₁ =>
      have hw₁ := noWrap_of_runRoots h.tasks hr hw
      obtain ⟨_, _, _, _, hstep⟩ := h.stepped hk hrest hr hw₁
      rw [hr] at hperf
      cases hperf hw₁ with
      | @ok _ w _ σ₁ hq he =>
        have hvanished : σ₁.motion.vanished = t₁.bullet.vanished :=
          congrArg Motion.vanished he.depicts.motion
        by_cases hend : status = .ended
        · subst hend
          rw [runRoots_of_ended hr] at hw ⊢
          cases hv : t₁.bullet.vanished with
          | true =>
            simp only [hv, if_true] at hw ⊢
            rw [Play.roots_of_vanished hpl (hvanished.trans hv)]
            obtain ⟨_, he', hk', hs'⟩ := hstep.dismiss he hw
            exact .ok (hk'.append hs') he' hstep.notices
          | false =>
            simp only [hv, Bool.false_eq_true, if_false] at hw ⊢
            rw [Play.roots_of_next hpl (hvanished.trans hv)]
            have hdrop : t₁.tasks.Evolves (t₁.dismiss root (kept ++ rest)).tasks :=
              hstep.ends.poised.tasks.evolves_release
            have hw₂ := (evolves_runRoots p kept rest (t := t₁.dismiss root (kept ++ rest))
              hdrop.sound).grows.noWrap hw
            obtain ⟨hends, he', hk', hs'⟩ := hstep.dismiss he hw₂
            apply hends.next hends.poised he' hstep.notices hw
            rw [show Play.remains .ended w = [] from rfl, List.append_nil]
            exact ih hends.poised hk' hs' he'.depicts hw
        · rw [runRoots_of_stays hr hend] at hw ⊢
          have hleft : Play.remains status w = [w] := by
            rw [Play.remains, if_neg (by simpa using hend)]
          cases hv : t₁.bullet.vanished with
          | true =>
            simp only [hv, if_true] at hw ⊢
            rw [Play.roots_of_vanished hpl (hvanished.trans hv), hleft]
            refine .ok ?_ he hstep.notices
            rw [hstep.roots]
            exact hstep.kept.append (hq.append hstep.rest)
          | false =>
            simp only [hv, Bool.false_eq_true, if_false] at hw ⊢
            rw [Play.roots_of_next hpl (hvanished.trans hv), hleft]
            have hpoised := hstep.ends.poised
            rw [hstep.roots, List.append_cons] at hpoised
            apply hstep.ends.next hpoised he hstep.notices hw
            exact ih hpoised (hstep.kept.append hq) hstep.rest he.depicts hw

end Turn
end Barrage

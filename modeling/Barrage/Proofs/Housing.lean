import Barrage.Proofs.Family
import Barrage.Proofs.Mirror

namespace Barrage

namespace Arena

/-- The bullets have live tasks, each its own. -/
def Serves (a : Arena) (bs : List Bullet) : Prop :=
  a.Sound ∧ ∃ X, a.Owned False (fun _ => True) bs X

/-- The tasks of the bullets show what they did before. -/
def Keeps (a a' : Arena) (bs : List Bullet) : Prop :=
  ∀ b ∈ bs, ∀ ws, a.Shows b.tasks ws → a'.Shows b.tasks ws

variable {a a' : Arena} {b : Bullet} {bs cs pre shots : List Bullet} {X : Finset TaskId}

theorem Keeps.subset (h : a.Keeps a' bs) (hs : cs ⊆ bs) : a.Keeps a' cs :=
  fun b hb => h b (hs hb)

namespace Serves

theorem perm (h : a.Serves bs) (hp : bs.Perm cs) : a.Serves cs := by
  obtain ⟨hs, X, hX⟩ := h
  exact ⟨hs, X, hX.perm hp⟩

theorem subperm (h : a.Serves bs) (hp : cs.Subperm bs) : a.Serves cs := by
  obtain ⟨found, hfound, hsub⟩ := hp
  obtain ⟨rest, hrest⟩ := hsub.exists_perm_append
  obtain ⟨hs, Z, hZ⟩ := h.perm (hrest.trans (hfound.append_right rest))
  obtain ⟨X, _, hX, _⟩ := hZ.of_append
  exact ⟨hs, X, hX⟩

theorem bare (h : a.Serves bs) (hb : b.tasks = []) : a.Serves (b :: bs) := by
  obtain ⟨hs, X, hX⟩ := h
  exact ⟨hs, _, .cons (.bare hb nofun) hX (Finset.disjoint_empty_left X)⟩

/-- It is all about the tasks of the bullets. -/
theorem congr (h : a.Serves bs) (hc : List.Forall₂ (fun b c => c.tasks = b.tasks) bs cs) :
    a.Serves cs := by
  obtain ⟨hs, X, hX⟩ := h
  refine ⟨hs, X, ?_⟩
  induction hX generalizing cs with
  | nil =>
    cases hc
    exact .nil
  | cons hb _ hd ih =>
    cases hc with
    | cons hbc hc => exact .cons (hb.congr hbc nofun) (ih hc) hd

theorem congr_head {c : Bullet} (h : a.Serves (b :: bs)) (hc : c.tasks = b.tasks) :
    a.Serves (c :: bs) :=
  h.congr (.cons hc (List.forall₂_same.2 fun _ _ => rfl))

/-- Some bullets make room for others, and the rest is left alone. -/
theorem replace (old new : List Bullet) (a' : Arena) (h : a.Serves (old ++ bs))
    (hr : ∀ X, a.Owned False (fun _ => True) old X → ∃ Y, a.Replaces a' X Y ∧
      a'.Owned False (fun _ => True) new Y ∧ (a'.NoWrap ∨ Y = ∅)) :
    a'.Serves (new ++ bs) ∧ a.Keeps a' bs := by
  obtain ⟨hs, Z, hZ⟩ := h
  obtain ⟨X, W, hX, hW, hd, rfl⟩ := hZ.of_append
  obtain ⟨Y, hrep, hY, hw⟩ := hr X hX
  have hlive : ∀ k ∈ W, a.contains k = true := fun k => hW.contains
  refine ⟨⟨hrep.sound, _, hY.append (hW.carry hrep hd hw) (hrep.disjoint hlive hd)⟩, ?_⟩
  intro b hb ws hshows
  obtain ⟨V, hsub, hV⟩ := hW.drives hb
  have hdis := hd.mono_right hsub
  rcases hw with hw | rfl
  · exact hshows.apart hV.spans hrep hdis hw
  · exact hshows.outlive hV.spans hrep hdis

/-- A bullet is recycled with its tasks. -/
theorem releaseAll (h : a.Serves (b :: bs)) :
    (a.releaseAll b.tasks).Serves bs ∧ a.Keeps (a.releaseAll b.tasks) bs := by
  have hs := h.1
  apply replace [b] [] _ h
  intro X hX
  have hspans := hX.spans
  rw [List.flatMap_singleton] at hspans
  exact ⟨∅, hspans.releaseAll hs, .nil, .inr rfl⟩

end Serves
end Arena

namespace Pool

variable {a : Arena} {p p' : Pool} {b : Bullet} {id : BulletId} {pre shots : List Bullet}

section Occupants

theorem occupants_create (h : p.create = (some id, p')) :
    p'.occupants.Subperm (.atRest id :: p.occupants) := by
  unfold create at h
  split at h
  · cases h
  · cases h
    exact Store.occupants_insert p.store Bullet.atRest

theorem occupants_vacate (p : Pool) (id : BulletId) :
    (p.take id).2.occupants.Subperm p.occupants := by
  cases hb : p.get? id with
  | some b => exact (List.sublist_cons_self _ _).subperm.trans (occupants_take hb).symm.subperm
  | none => exact (Store.occupants_of_none hb fun _ _ => rfl).subperm

/-- What is removed was one of the bullets, and the others stay. -/
theorem occupants_remove (h : (p.remove id).1 = some b) :
    p.occupants.Perm (b :: (p.remove id).2.occupants) := by
  unfold remove at h ⊢
  split
  · rename_i hc
    rw [if_pos hc] at h
    exact (occupants_take h).trans ((Store.occupants_release p.store id).symm.cons b)
  · rename_i hc
    rw [if_neg hc] at h
    cases h

theorem occupants_remove_subperm (p : Pool) (id : BulletId) :
    (p.remove id).2.occupants.Subperm p.occupants := by
  unfold remove
  split
  · exact (Store.occupants_release p.store id).subperm.trans (occupants_vacate p id)
  · exact List.Subperm.refl _

theorem create_of_full (h : p.create = (none, p')) : p' = p := by
  unfold create at h
  split at h
  · cases h
    rfl
  · cases h

theorem occupants_accept (p : Pool) (b : Bullet) :
    ∃ id, (p.accept b).occupants.Subperm ({ b with id } :: .atRest id :: p.occupants) := by
  unfold accept
  rcases hc : p.create with ⟨_ | id, p'⟩
  · cases create_of_full hc
    refine ⟨⟨0, 0⟩, ?_⟩
    exact ((List.sublist_cons_self _ _).trans (List.sublist_cons_self _ _)).subperm
  · refine ⟨id, ?_⟩
    exact (occupants_place p' _).trans ((List.subperm_cons _).2 (occupants_create hc))

theorem occupants_waste (p : Pool) : ∃ id, p.waste.occupants.Subperm (.atRest id :: p.occupants) := by
  unfold waste
  rcases hc : p.create with ⟨_ | id, p'⟩
  · cases create_of_full hc
    exact ⟨⟨0, 0⟩, (List.sublist_cons_self _ _).subperm⟩
  · exact ⟨id, (occupants_remove_subperm p' id).trans (occupants_create hc)⟩

end Occupants

/-- A bullet that is at rest in a slot needs no tasks. -/
theorem serves_accept (h : a.Serves (b :: (pre ++ p.occupants))) :
    a.Serves (pre ++ (p.accept b).occupants) := by
  obtain ⟨id, hid⟩ := occupants_accept p b
  have hplaced : a.Serves ({ b with id } :: (pre ++ p.occupants)) := h.congr_head rfl
  have hrest : a.Serves (Bullet.atRest id :: { b with id } :: (pre ++ p.occupants)) :=
    hplaced.bare rfl
  apply hrest.subperm
  refine ((List.subperm_append_left pre).2 hid).trans (List.Perm.subperm ?_)
  refine List.perm_middle.trans (.trans (.cons _ List.perm_middle) (.swap _ _ _))

theorem serves_receive (pre : List Bullet) (h : a.Serves (shots ++ (pre ++ p.occupants)))
    (vain : Bool) :
    a.Serves (pre ++ (p.receive shots vain).occupants) := by
  induction shots generalizing p with
  | nil =>
    cases vain with
    | false => exact h
    | true =>
      obtain ⟨id, hid⟩ := occupants_waste p
      have hrest : a.Serves (Bullet.atRest id :: (pre ++ p.occupants)) := h.bare rfl
      apply hrest.subperm
      exact ((List.subperm_append_left pre).2 hid).trans List.perm_middle.subperm
  | cons b shots ih =>
    rw [List.cons_append, ← List.append_assoc] at h
    have haccept := serves_accept h
    rw [List.append_assoc] at haccept
    exact ih haccept

end Pool

/-- Plays the trees of a bullet with a pattern. Without one, they are left. -/
def Play.program : Option Pattern → List WorkTree → Play (List WorkTree)
  | none, ws => pure ws
  | some p, ws => Play.roots p ws

namespace Turn

/-- The stage on which the turn is played. -/
def scene (t : Turn) : Stage := ⟨t.bullet.motion, t.context, ⟨t.pool.room.places, 0⟩, []⟩

/-- Whether the turn is stopped since the tasks of a pattern would be nested too deep. -/
def isStarved (t : Turn) : Bool :=
  match t.runTasks.notices.back? with
  | some (.bulletStopped _ _ (.recursionLimit _)) => t.notices.size < t.runTasks.notices.size
  | _ => false

/-- What a play has come to is what there is after a turn, in which shots were fired. -/
structure Realizes (t : Turn) (shots : List Bullet) (vain : Bool)
    (x : EStateM.Result PatternError Stage (List WorkTree)) : Prop where
  roots : t.tasks.Shows t.bullet.tasks (Play.left x)
  motion : t.bullet.motion = (Play.stage x).motion
  context : t.context = (Play.stage x).context
  misses : (Play.stage x).room.misses = vain.toNat
  cast : t.tasks.Casts shots (Play.stage x).cast

/-- A turn in which shots were fired beside the bullets `bs`. -/
structure Passes (t : Turn) (bs shots : List Bullet) (vain : Bool) : Prop where
  pool : t.runTasks.pool = t.pool.receive shots vain
  serves : t.runTasks.tasks.Serves (shots ++ t.runTasks.bullet :: bs)
  keeps : t.tasks.Keeps t.runTasks.tasks bs
  alike : t.bullet.Alike t.runTasks.bullet
  launched : ∀ shot ∈ shots, shot.pattern = t.bullet.pattern
  realizes : ∀ ws, t.tasks.Shows t.bullet.tasks ws →
    t.runTasks.Realizes shots vain (Play.program t.bullet.pattern ws t.scene)
  starved : ∀ ws, t.tasks.Shows t.bullet.tasks ws → ∀ n σ,
    Play.program t.bullet.pattern ws t.scene = .error (.recursionLimit n) σ → t.isStarved = true

variable {p : Pattern} {t : Turn} {bs shots news : List Bullet} {vain : Bool}
  {X X' N : Finset TaskId}

theorem passes_idle (h : t.tasks.Serves (t.bullet :: bs)) (hp : t.bullet.pattern = none) :
    t.Passes bs [] false := by
  have hrun : t.runTasks = t := by rw [runTasks, hp]
  have hplay (ws) : Play.program t.bullet.pattern ws t.scene = .ok ws t.scene := by
    rw [hp]
    rfl
  refine ⟨by rw [hrun]; rfl, by rw [hrun]; exact h, by rw [hrun]; exact fun _ _ _ hs => hs,
    by rw [hrun]; exact .refl _, List.forall_mem_nil _, ?_, ?_⟩
  · intro ws hs
    rw [hrun, hplay]
    exact ⟨hs, rfl, rfl, rfl, .nil⟩
  · intro ws hs n σ hx
    rw [hplay] at hx
    cases hx

/-- The bullets as they were fired and as they stand in their slots differ by their handles. -/
def Housed (shots news : List Bullet) : Prop :=
  List.Forall₂ (fun shot b => b = { shot with id := b.id }) shots news

namespace Housed

theorem tasks (h : Housed shots news) :
    List.Forall₂ (fun b shot => shot.tasks = b.tasks) news shots := by
  apply List.Forall₂.flip
  apply h.imp
  intro shot b hb
  exact (congrArg Bullet.tasks hb).symm

theorem pattern {pattern : Option Pattern} (h : Housed shots news)
    (hp : ∀ b ∈ news, b.pattern = pattern) : ∀ shot ∈ shots, shot.pattern = pattern := by
  induction h with
  | nil => exact List.forall_mem_nil _
  | @cons shot b shots news hb _ ih =>
    obtain ⟨hhead, htail⟩ := List.forall_mem_cons.1 hp
    have hself : b.pattern = shot.pattern := by rw [hb]
    exact List.forall_mem_cons.2 ⟨hself.symm.trans hhead, ih htail⟩

theorem casts {a : Arena} {actors : List Actor} (h : Housed shots news) (hc : a.Casts news actors) :
    a.Casts shots actors := by
  induction h generalizing actors with
  | nil =>
    cases hc
    exact .nil
  | @cons shot b shots news hb _ ih =>
    cases hc with
    | cons hactor hc =>
      have hmotion : b.motion = shot.motion := by
        rw [hb]
        rfl
      have htasks : b.tasks = shot.tasks := by rw [hb]
      exact .cons ⟨hmotion ▸ hactor.1, htasks ▸ hactor.2⟩ (ih hc)

end Housed

/-- A turn does to its own pool what it would do to an empty one with as many places. -/
structure Rehearses (p : Pattern) (t : Turn) (shots news : List Bullet) (vain : Bool)
    (X X' N : Finset TaskId) : Prop where
  pool : t.runTasks.pool = t.pool.receive shots vain
  misses : ((Pool.ofCapacity t.pool.room.places).receive shots vain).room.misses = vain.toNat
  housed : Housed shots news
  ends : Ends False p { t with pool := .ofCapacity t.pool.room.places }
    { t.runTasks with pool := (Pool.ofCapacity t.pool.room.places).receive shots vain } X X' N news
  closes : ∀ ws, t.tasks.Shows t.bullet.tasks ws →
    Closes p { t with pool := .ofCapacity t.pool.room.places } t.scene []
      { t.runTasks with pool := (Pool.ofCapacity t.pool.room.places).receive shots vain }
      (Play.roots p ws t.scene)

theorem rehearses (hs : t.tasks.Sound) (hp : t.bullet.pattern = some p)
    (hd : t.bullet.Drives False (fun _ => True) t.tasks X) (hw : t.runTasks.tasks.NoWrap) :
    ∃ shots news vain X' N, t.Rehearses p shots news vain X X' N := by
  have hsound := Pool.sound_ofCapacity t.pool.room.places
  obtain ⟨shots, vain, hm⟩ := matched_runTasks t (Q := .ofCapacity t.pool.room.places) rfl
  obtain ⟨news, hadds, hmisses, hhoused⟩ := hsound.adds_receive hm.room
  have hother : runRoots p [] t.bullet.tasks { t with pool := .ofCapacity t.pool.room.places } =
      { t.runTasks with pool := (Pool.ofCapacity t.pool.room.places).receive shots vain } := by
    have hrun := hm.other
    rw [runTasks, show ({ t with pool := _ } : Turn).bullet.pattern = some p from hp] at hrun
    exact hrun
  have hprogram := Bullet.program_of_some hp
  have hpoised : Poised False p ([] ++ t.bullet.tasks) X
      { t with pool := .ofCapacity t.pool.room.places } :=
    ⟨rfl, hd.spans, hd.live, hs, hsound, hprogram ▸ hd.fit⟩
  have hw' : (runRoots p [] t.bullet.tasks
      { t with pool := .ofCapacity t.pool.room.places }).tasks.NoWrap := by
    rw [hother]
    exact hw
  obtain ⟨X', N, fired, he⟩ := hpoised.ranRoots hw'
  have hdepicts : t.scene.Depicts { t with pool := .ofCapacity t.pool.room.places } :=
    ⟨rfl, rfl, rfl⟩
  have hcloses (ws) (hshows : t.tasks.Shows t.bullet.tasks ws) :=
    closes_runRoots hpoised .nil hshows hdepicts hw'
  rw [hother] at he
  simp only [hother] at hcloses
  obtain rfl : fired = news := he.adds.newcomers.symm.trans hadds.newcomers
  exact ⟨shots, fired, vain, X', N, hm.pool, by rw [hmisses]; exact Nat.zero_add _, hhoused, he,
    hcloses⟩

/-- A play that lacks levels has stopped the turn. -/
theorem Rehearses.starved {ws : List WorkTree} {σ : Stage} {n : Nat}
    (h : t.Rehearses p shots news vain X X' N) (hs : t.tasks.Shows t.bullet.tasks ws)
    (hx : Play.roots p ws t.scene = .error (.recursionLimit n) σ) : t.isStarved = true := by
  have hcloses := h.closes ws hs
  rw [hx] at hcloses
  cases hcloses with
  | @error _ _ told _ _ hadded hlast =>
    obtain ⟨new, hnew, _⟩ := hadded
    have hlast : t.runTasks.notices = told.push _ := hlast
    rw [isStarved, hlast, Array.back?_push, Array.size_push, hnew, Array.size_append]
    simp only [decide_eq_true_eq]
    omega

/-- Every turn of a bullet with tasks of its own realizes what its trees play, and leaves the other
bullets alone. -/
theorem passes (h : t.tasks.Serves (t.bullet :: bs)) (hw : t.runTasks.tasks.NoWrap) :
    ∃ shots vain, t.Passes bs shots vain := by
  cases hp : t.bullet.pattern with
  | none => exact ⟨[], false, passes_idle h hp⟩
  | some p =>
    obtain ⟨Y, _, hdrives⟩ := h.2.choose_spec.drives List.mem_cons_self
    obtain ⟨shots, news, vain, X', N, hr⟩ := rehearses h.1 hp hdrives hw
    have he := hr.ends
    have hnews : ∀ b ∈ news, b.pattern = t.bullet.pattern :=
      fun b hb => (he.launched b hb).pattern
    have hcalled : t.bullet.program = p := Bullet.program_of_some hp
    have hcalled' : t.runTasks.bullet.program = p :=
      Bullet.program_of_some (he.alike.pattern.trans hp)
    obtain ⟨hserves, hkeeps⟩ := Arena.Serves.replace [t.bullet]
      (t.runTasks.bullet :: news) t.runTasks.tasks h fun X hX => by
        have hspans := hX.spans
        rw [List.flatMap_singleton] at hspans
        obtain rfl := hspans.unique hdrives.spans
        have hself : t.runTasks.bullet.Drives False (fun _ => True) t.runTasks.tasks X' :=
          ⟨he.poised.spans, he.poised.live, hcalled' ▸ he.poised.fit, nofun, nofun⟩
        have hshots : t.runTasks.tasks.Owned False (fun _ => True) news N :=
          .of_shots (b := t.bullet) he.fired he.rooted (hcalled ▸ he.shots) hnews nofun
        exact ⟨_, he.replaces, .cons hself hshots he.apart, .inl hw⟩
    refine ⟨shots, vain, hr.pool, ?_, hkeeps, he.alike, hr.housed.pattern hnews, ?_, ?_⟩
    · rw [List.cons_append] at hserves
      refine (hserves.perm List.perm_middle.symm).congr ?_
      exact List.rel_append hr.housed.tasks (List.forall₂_same.2 fun _ _ => rfl)
    · intro ws hs
      rw [hp]
      obtain ⟨hleft, henacts⟩ := (hr.closes ws hs).left
      obtain ⟨actors, hcast, hc⟩ := henacts.cast
      rw [he.adds.newcomers] at hc
      have hroom : (Play.stage (Play.roots p ws t.scene)).room.misses = vain.toNat := by
        rw [henacts.depicts.room]
        exact hr.misses
      refine ⟨hleft, henacts.depicts.motion.symm, henacts.depicts.context.symm, hroom, ?_⟩
      rw [Play.program, hcast]
      exact hr.housed.casts hc
    · intro ws hs n σ hx
      rw [hp] at hx
      exact hr.starved hs hx

end Turn
end Barrage

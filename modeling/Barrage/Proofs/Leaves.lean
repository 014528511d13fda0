import Barrage.Proofs.Fit
import Barrage.Proofs.Pool
import Barrage.Proofs.Trace

namespace Barrage

/-- A bullet as it leaves the one that fires it. -/
structure Bullet.LaunchedFrom (shot b : Bullet) : Prop where
  pos : shot.pos = b.pos
  age : shot.age = 0
  vanished : shot.vanished = false
  pattern : shot.pattern = b.pattern

/-- The same bullet, which has neither moved nor aged. -/
structure Bullet.Alike (b b' : Bullet) : Prop where
  id : b'.id = b.id
  pos : b'.pos = b.pos
  age : b'.age = b.age
  pattern : b'.pattern = b.pattern

theorem Bullet.Alike.refl (b : Bullet) : b.Alike b := ⟨rfl, rfl, rfl, rfl⟩

theorem Bullet.Alike.trans {b b' b'' : Bullet} (h₁ : b.Alike b') (h₂ : b'.Alike b'') :
    b.Alike b'' :=
  ⟨h₂.id.trans h₁.id, h₂.pos.trans h₁.pos, h₂.age.trans h₁.age, h₂.pattern.trans h₁.pattern⟩

theorem Bullet.LaunchedFrom.alike {shot b b' : Bullet} (h : shot.LaunchedFrom b')
    (hb : b.Alike b') : shot.LaunchedFrom b :=
  ⟨h.pos.trans hb.pos, h.age, h.vanished, h.pattern.trans hb.pattern⟩

/-- The notice is about a `repeat` that wants to run too often. -/
def Notice.IsClamp : Notice → Prop
  | .repeatClamped .. => True
  | _ => False

/-- Notices were added to those before, and `C` holds for each of them. -/
def Notice.Added (C : Notice → Prop) (before after : Array Notice) : Prop :=
  ∃ new, after = before ++ new ∧ ∀ n ∈ new, C n

namespace Notice.Added

variable {C D : Notice → Prop} {n : Notice} {ns ns' ns'' : Array Notice}

theorem refl (ns : Array Notice) : Added C ns ns :=
  ⟨#[], Array.append_empty.symm, fun _ h => absurd h (Array.not_mem_empty _)⟩

theorem push (ns : Array Notice) (h : C n) : Added C ns (ns.push n) := by
  refine ⟨#[n], Array.push_eq_append, ?_⟩
  intro k hk
  rw [Array.mem_singleton.1 hk]
  exact h

theorem trans (h₁ : Added C ns ns') (h₂ : Added C ns' ns'') : Added C ns ns'' := by
  obtain ⟨new, rfl, hn⟩ := h₁
  obtain ⟨more, rfl, hm⟩ := h₂
  exact ⟨new ++ more, Array.append_assoc, fun k hk => (Array.mem_append.1 hk).elim (hn k) (hm k)⟩

theorem imp (h : Added C ns ns') (hi : ∀ n, C n → D n) : Added D ns ns' := by
  obtain ⟨new, he, hn⟩ := h
  exact ⟨new, he, fun n hm => hi n (hn n hm)⟩

theorem of_mem (h : Added C ns ns') (hm : n ∈ ns') : n ∈ ns ∨ C n := by
  obtain ⟨new, rfl, hn⟩ := h
  exact (Array.mem_append.1 hm).imp_right (hn n)

end Notice.Added

namespace Turn

/-- What a run leaves alone: the bullet but for its motion, and the notices but for those of
repeats. -/
structure Keeps (t t' : Turn) : Prop where
  alike : t.bullet.Alike t'.bullet
  tasks : t'.bullet.tasks = t.bullet.tasks
  notices : Notice.Added Notice.IsClamp t.notices t'.notices

theorem Keeps.of_eq {t t' : Turn} (hb : t'.bullet = t.bullet) (hn : t'.notices = t.notices) :
    t.Keeps t' := by
  refine ⟨?_, by rw [hb], hn ▸ .refl _⟩
  rw [hb]
  exact .refl _

theorem Keeps.refl (t : Turn) : t.Keeps t := .of_eq rfl rfl

theorem Keeps.trans {t t' t'' : Turn} (h₁ : t.Keeps t') (h₂ : t'.Keeps t'') : t.Keeps t'' where
  alike := h₁.alike.trans h₂.alike
  tasks := h₂.tasks.trans h₁.tasks
  notices := h₁.notices.trans h₂.notices

/-- Bullets were fired whose tasks are a forest `N` of their own, and the forest `X` of the bullet
that fired them has become `X'`. -/
structure Fires (t t' : Turn) (X X' N : Finset TaskId) (shots : List Bullet) : Prop where
  fired : t'.tasks.Spans (shots.flatMap Bullet.tasks) N
  apart : Disjoint X' N
  replaces : t.tasks.Replaces t'.tasks X (X' ∪ N)
  rooted : ∀ b ∈ shots, ∀ c ∈ b.tasks, t'.tasks.contains c = true
  adds : t.pool.Adds t'.pool shots
  launched : ∀ b ∈ shots, b.LaunchedFrom t.bullet

/-- What a run from `t` to `t'` leaves of the forest `X` under some roots: the forest `X'` under the
same roots, and the forests `N` of the bullets it fired. The tasks of those fit, and the tasks that
fitted before still fit if the run went well, for which `ok` stands. -/
structure Leaves (g ok : Prop) (p : Pattern) (t t' : Turn) (cs : List TaskId)
    (X X' N : Finset TaskId) (shots : List Bullet) : Prop extends Fires t t' X X' N shots where
  spans : t'.tasks.Spans cs X'
  alive : ∀ c ∈ cs, t.tasks.contains c = true → t'.tasks.contains c = true
  keeps : t.Keeps t'
  fit : ok → t.tasks.Fit g p X → t'.tasks.Fit g p X'
  shots : t.tasks.Fit g p X → t'.tasks.Fit g p N

variable {g ok : Prop} {p : Pattern} {t t' t'' : Turn} {cs ds es : List TaskId} {id : TaskId}
  {task : Task} {X X' X'' Y Y' Z N N' : Finset TaskId} {shots more : List Bullet}

theorem Fires.idle (hr : t.tasks.Replaces t'.tasks X X')
    (hp : t.pool.Adds t'.pool []) : Fires t t' X X' ∅ [] where
  fired := .nil
  apart := Finset.disjoint_empty_right _
  replaces := by
    rw [Finset.union_empty]
    exact hr
  rooted _ h := absurd h List.not_mem_nil
  adds := hp
  launched _ h := absurd h List.not_mem_nil

theorem Fires.trans (h₁ : Fires t t' X X' N shots) (h₂ : Fires t' t'' X' X'' N' more)
    (hb : t.bullet.Alike t'.bullet) (hw : t''.tasks.NoWrap) :
    Fires t t'' X X'' (N ∪ N') (shots ++ more) := by
  have hlive : ∀ id ∈ N, t'.tasks.contains id = true := fun id => h₁.fired.contains
  have hN : t''.tasks.Spans (shots.flatMap Bullet.tasks) N := h₁.fired.apart h₂.replaces h₁.apart hw
  have hd := h₂.replaces.disjoint hlive h₁.apart
  rw [Finset.disjoint_union_left] at hd
  have hr := h₁.replaces.trans (h₂.replaces.frame hlive h₁.apart)
  rw [Finset.union_assoc, Finset.union_comm N' N] at hr
  refine ⟨?_, Finset.disjoint_union_right.2 ⟨hd.1, h₂.apart⟩, hr, ?_, h₁.adds.trans h₂.adds, ?_⟩
  · rw [List.flatMap_append]
    exact hN.append h₂.fired hd.2.symm
  · intro b hb c hc
    rcases List.mem_append.1 hb with hb | hb
    · have hl := h₁.rooted b hb c hc
      have hcN : c ∈ N := h₁.fired.mem_of_live (List.mem_flatMap.2 ⟨b, hb, hc⟩) hl
      exact h₂.replaces.keeps hl (Finset.disjoint_right.1 h₁.apart hcN)
    · exact h₂.rooted b hb c hc
  · intro b hm
    rcases List.mem_append.1 hm with hm | hm
    · exact h₁.launched b hm
    · exact (h₂.launched b hm).alike hb

theorem Leaves.still (hs : t.tasks.Spans cs X) (ha : t.tasks.Sound) (hp : t.pool.Sound)
    (htasks : t'.tasks = t.tasks) (hpool : t'.pool = t.pool) (hk : t.Keeps t') :
    Leaves g ok p t t' cs X X ∅ [] where
  toFires := .idle (by rw [htasks]; exact .refl ha X) (by rw [hpool]; exact .refl hp)
  spans := htasks ▸ hs
  alive _ _ h := htasks ▸ h
  keeps := hk
  fit _ h := htasks ▸ h
  shots _ := .empty

theorem Leaves.refl (hs : t.tasks.Spans cs X) (ha : t.tasks.Sound) (hp : t.pool.Sound) :
    Leaves g ok p t t cs X X ∅ [] :=
  .still hs ha hp rfl rfl (.refl t)

theorem Leaves.weaken (h : Leaves g ok p t t' cs X X' N shots) {ok' : Prop} (hi : ok' → ok) :
    Leaves g ok' p t t' cs X X' N shots :=
  { h with fit := fun ho => h.fit (hi ho) }

theorem Leaves.join {ok₁ ok₂ : Prop} (h₁ : Leaves g ok₁ p t t' cs X X' N shots)
    (h₂ : Leaves g ok₂ p t' t'' cs X' X'' N' more) (hok : ok → ok₁ ∧ ok₂) (hq : ok₁ ∨ N' = ∅)
    (hw : t''.tasks.NoWrap) : Leaves g ok p t t'' cs X X'' (N ∪ N') (shots ++ more) where
  toFires := h₁.toFires.trans h₂.toFires h₁.keeps.alike hw
  spans := h₂.spans
  alive c hc hl := h₂.alive c hc (h₁.alive c hc hl)
  keeps := h₁.keeps.trans h₂.keeps
  fit ho hf := h₂.fit (hok ho).2 (h₁.fit (hok ho).1 hf)
  shots hf := by
    apply ((h₁.shots hf).apart h₁.fired h₂.replaces h₁.apart).union
    rcases hq with ho | rfl
    · exact h₂.shots (h₁.fit ho hf)
    · exact .empty

theorem Leaves.trans (h₁ : Leaves g True p t t' cs X X' N shots)
    (h₂ : Leaves g ok p t' t'' cs X' X'' N' more) (hw : t''.tasks.NoWrap) :
    Leaves g ok p t t'' cs X X'' (N ∪ N') (shots ++ more) :=
  h₁.join h₂ (fun ho => ⟨trivial, ho⟩) (.inl trivial) hw

/-- Other roots and what is under them are not touched. -/
theorem Leaves.frame (h : Leaves g ok p t t' cs X X' N shots) (hz : t.tasks.Spans es Z)
    (hd : Disjoint X Z) (hp : (cs ++ es).Perm ds) (hw : t'.tasks.NoWrap) :
    Leaves g ok p t t' ds (X ∪ Z) (X' ∪ Z) N shots := by
  have hlive : ∀ id ∈ Z, t.tasks.contains id = true := fun id => hz.contains
  have hz' : t'.tasks.Spans es Z := hz.apart h.replaces hd hw
  have hd' := Finset.disjoint_union_left.1 (h.replaces.disjoint hlive hd)
  have hset : X' ∪ N ∪ Z = X' ∪ Z ∪ N := Finset.union_right_comm _ _ _
  refine ⟨⟨h.fired, Finset.disjoint_union_left.2 ⟨h.apart, hd'.2.symm⟩,
    hset ▸ h.replaces.frame hlive hd, h.rooted, h.adds, h.launched⟩,
    (h.spans.append hz' hd'.1).perm hp, ?_, h.keeps, ?_, ?_⟩
  · intro c hc hl
    rcases List.mem_append.1 (hp.mem_iff.2 hc) with hc | hc
    · exact h.alive c hc hl
    · exact h.replaces.keeps hl (Finset.disjoint_right.1 hd (hz.mem_of_live hc hl))
  · intro ho hf
    have hfZ := (hf.mono Finset.subset_union_right).apart hz h.replaces hd
    exact (h.fit ho (hf.mono Finset.subset_union_left)).union hfZ
  · exact fun hf => h.shots (hf.mono Finset.subset_union_left)

/-- The children of a task are run, and the task itself is not touched. -/
theorem Leaves.under (ht : t.tasks.get? id = some task) (hid : id ∉ Y)
    (h : Leaves g ok p t t' task.children Y Y' N shots) :
    Leaves g ok p t t' [id] ({id} ∪ Y) ({id} ∪ Y') N shots := by
  have hlive := Arena.contains_of_get? ht
  have ht' : t'.tasks.get? id = some task := by rw [h.replaces.kept id hlive hid, ht]
  have hd : Disjoint Y {id} := Finset.disjoint_singleton_right.2 hid
  have hsingle : ∀ k ∈ ({id} : Finset TaskId), t.tasks.contains k = true := fun k hk => by
    rw [Finset.mem_singleton.1 hk]
    exact hlive
  have hd' := Finset.disjoint_union_left.1 (h.replaces.disjoint hsingle hd)
  have hset : Y' ∪ N ∪ {id} = {id} ∪ Y' ∪ N := by
    rw [Finset.union_comm, Finset.union_assoc]
  have hr := h.replaces.frame hsingle hd
  rw [hset, Finset.union_comm Y] at hr
  refine ⟨⟨h.fired, Finset.disjoint_union_left.2 ⟨hd'.2.symm, h.apart⟩, hr, h.rooted, h.adds,
    h.launched⟩, .single ht' h.spans (Finset.disjoint_singleton_right.1 hd'.1), ?_, h.keeps, ?_, ?_⟩
  · intro c hc _
    rw [List.mem_singleton.1 hc]
    exact Arena.contains_of_get? ht'
  · intro ho hf
    have hfY := h.fit ho (hf.mono Finset.subset_union_right)
    refine Arena.Fit.union ?_ hfY
    intro k hk task' htask'
    rw [Finset.mem_singleton.1 hk, ht', Option.some.injEq] at htask'
    subst htask'
    have hself := hf id (Finset.mem_union_left _ (Finset.mem_singleton_self _)) task ht
    refine ⟨hself.bound, ?_⟩
    intro hfin hone
    obtain ⟨c, hc, hl⟩ := hself.held hfin hone
    exact ⟨c, hc, h.alive c (hc ▸ List.mem_singleton_self c) hl⟩
  · exact fun hf => h.shots (hf.mono Finset.subset_union_right)

/-- A task in the forest is changed, but not its children. -/
theorem Leaves.modify {f : Task → Task} (hs : t.tasks.Spans cs X) (ha : t.tasks.Sound)
    (hp : t.pool.Sound) (hid : id ∈ X) (htasks : t'.tasks = t.tasks.modify id f)
    (hpool : t'.pool = t.pool) (hk : t.Keeps t') (hc : ∀ task, (f task).children = task.children)
    (hf : ∀ task, t.tasks.get? id = some task → task.Fits g p t.tasks →
      (f task).Fits g p t.tasks) :
    Leaves g ok p t t' cs X X ∅ [] where
  toFires := .idle (by rw [htasks]; exact ha.replaces_modify hid)
    (by rw [hpool]; exact .refl hp)
  spans := htasks ▸ hs.modify hc
  alive _ _ h := by
    rw [htasks, Arena.contains_modify]
    exact h
  keeps := hk
  fit _ h := by
    rw [htasks]
    exact h.modify hf
  shots _ := .empty

theorem Leaves.after (h₂ : Leaves g ok p t' t'' cs X' X'' N shots)
    (h₁ : Leaves g True p t t' cs X X' ∅ []) (hw : t''.tasks.NoWrap) :
    Leaves g ok p t t'' cs X X'' N shots := by
  simpa using h₁.trans h₂ hw

theorem Leaves.before (h₁ : Leaves g ok p t t' cs X X' N shots)
    (h₂ : Leaves g ok p t' t'' cs X' X'' ∅ []) (hw : t''.tasks.NoWrap) :
    Leaves g ok p t t'' cs X X'' N shots := by
  simpa using h₁.join h₂ (fun ho => ⟨ho, ho⟩) (.inr rfl) hw

/-- The only child of a task is released, and the task changed so that it has no other. -/
theorem Leaves.strip {f : Task → Task} {body : TaskId} (ht : t.tasks.get? id = some task)
    (hs : t.tasks.Spans [body] Y) (hid : id ∉ Y) (ha : t.tasks.Sound) (hp : t.pool.Sound)
    (hc : (f task).children ⊆ [body]) (hf : ok → task.Fits g p t.tasks →
      (f task).isFinished = true ∧ (g → p.Bound (f task).node (f task).kind)) :
    Leaves g ok p t { t with tasks := (t.tasks.release body).2.modify id f } [id] ({id} ∪ Y) {id}
      ∅ [] := by
  have hlive := Arena.contains_of_get? ht
  have hrel := hs.release ha
  have hget : ((t.tasks.release body).2.modify id f).get? id = some (f task) := by
    rw [Arena.get?_modify, if_pos rfl, hrel.kept id hlive hid, ht]
    rfl
  have hd : Disjoint Y {id} := Finset.disjoint_singleton_right.2 hid
  have hsingle : ∀ k ∈ ({id} : Finset TaskId), t.tasks.contains k = true := fun k hk => by
    rw [Finset.mem_singleton.1 hk]
    exact hlive
  have hr := (hrel.frame hsingle hd).trans
    (hrel.sound.replaces_modify (f := f) (Finset.mem_union_right ∅ (Finset.mem_singleton_self id)))
  rw [Finset.union_comm Y, Finset.empty_union] at hr
  have hbody : ((t.tasks.release body).2.modify id f).get? body = none ∧
      ((t.tasks.release body).2.modify id f).IsDead body := by
    obtain ⟨hn, hdead⟩ := hs.release_root ha
    refine ⟨Arena.get?_eq_none fun h => ?_, hdead.grows Arena.grows_modify⟩
    rw [Arena.contains_modify, Arena.contains, hn] at h
    cases h
  have hkids : ((t.tasks.release body).2.modify id f).Spans (f task).children ∅ :=
    Arena.spans_of_dead fun c h => List.mem_singleton.1 (hc h) ▸ hbody
  have hspans := Arena.Spans.single hget hkids (Finset.notMem_empty id)
  rw [Finset.union_empty] at hspans
  refine ⟨.idle hr (.refl hp), hspans, ?_, .of_eq rfl rfl, ?_, fun _ => .empty⟩
  · intro c h _
    rw [List.mem_singleton.1 h]
    exact Arena.contains_of_get? hget
  · intro ho hfit k hk task' htask'
    rw [Finset.mem_singleton.1 hk, hget, Option.some.injEq] at htask'
    subst htask'
    obtain ⟨hfin, hb⟩ := hf ho (hfit id (Finset.mem_union_left _ (Finset.mem_singleton_self id))
      task ht)
    refine ⟨hb, ?_⟩
    intro h
    rw [hfin] at h
    cases h

end Turn
end Barrage

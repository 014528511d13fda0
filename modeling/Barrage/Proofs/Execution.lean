import Barrage.Proofs.Turn

namespace Barrage.Turn

variable {g ok : Prop} {p : Pattern} {fuel : Nat} {job : Job} {t t' t'' t₁ : Turn}
  {id body : TaskId}
  {task : Task} {calls : List Call} {r : Except PatternError Status} {X Y : Finset TaskId}

section Bodies

theorem bound_countBody {n : NodeId} (h : p.Bound n task.kind) : p.Bound n task.countBody.kind := by
  apply h.of_shape
  unfold Task.countBody
  cases task.kind <;> rfl

theorem get?_countBody (ht : t.tasks.get? id = some task) (hs : t.tasks.Spans [body] Y)
    (hid : id ∉ Y) (ha : t.tasks.Sound) :
    ((t.shed body).countBody id task).tasks.get? id = some task.countBody := by
  have hlive := Arena.contains_of_get? ht
  rw [countBody, Arena.get?_modify, if_pos rfl, shed, (hs.release ha).kept id hlive hid, ht]
  rfl

theorem leaves_countBody (ht : t.tasks.get? id = some task) (hs : t.tasks.Spans [body] Y)
    (hid : id ∉ Y) (ha : t.tasks.Sound) (hp : t.pool.Sound) :
    Leaves g False p t ((t.shed body).countBody id task) [id] ({id} ∪ Y) {id} ∅ [] :=
  .strip ht hs hid ha hp (List.nil_subset _) nofun

theorem leaves_last (ht : t.tasks.get? id = some task) (hs : t.tasks.Spans [body] Y) (hid : id ∉ Y)
    (ha : t.tasks.Sound) (hp : t.pool.Sound)
    (hw : (((t.shed body).countBody id task).close id (.ok .ended)).tasks.NoWrap) :
    Leaves g ok p t (((t.shed body).countBody id task).close id (.ok .ended)) [id] ({id} ∪ Y) {id}
      ∅ [] := by
  have hcount : Leaves g False p t _ [id] _ _ ∅ [] := leaves_countBody ht hs hid ha hp
  have hclose : Leaves g False p _ (((t.shed body).countBody id task).close id (.ok .ended)) [id]
      {id} {id} ∅ [] :=
    leaves_close hcount.spans hcount.replaces.sound hcount.adds.sound (Finset.mem_singleton_self id)
  refine { hcount.before hclose hw with fit := ?_ }
  intro _ hfit
  have hself := hfit id (Finset.mem_union_left _ (Finset.mem_singleton_self id)) task ht
  intro k hk task' htask'
  have hget := get?_countBody ht hs hid ha
  rw [Finset.mem_singleton] at hk
  rw [hk, close, Arena.get?_modify, if_pos rfl, hget, Option.map_some, Option.some.injEq] at htask'
  subst htask'
  refine ⟨fun hg => bound_countBody (hself.bound hg), ?_⟩
  intro h
  rw [isFinished_finished] at h
  cases h

variable {room : Nat} {fresh : TaskId} {b : Bullet} {e : PatternError}

theorem leaves_unbound (ht : t.tasks.get? id = some task) (hs : t.tasks.Spans [body] Y)
    (hid : id ∉ Y) (ha : t.tasks.Sound) (hpool : t.pool.Sound) (hp : g → p.Closed)
    (hb : g → p.Bound task.node task.kind) (hk : task.kind.isRepeat = true)
    (h : rebind p room id task b ((t.shed body).countBody id task) = .error e t')
    (hw : t'.tasks.NoWrap) :
    Leaves g False p t t' [id] ({id} ∪ Y) {id} ∅ [] ∧ (g → p.Raises e) := by
  have hcount : Leaves g False p t _ [id] _ _ ∅ [] := leaves_countBody ht hs hid ha hpool
  obtain ⟨hr, hraise, hpool', hkeeps⟩ := rebind_error hcount.replaces.sound h hp hb hk
  have hempty := Finset.disjoint_empty_left ({id} : Finset TaskId)
  have hframe := hr.frame (fun k hk => hcount.spans.contains hk) hempty
  rw [Finset.empty_union] at hframe
  have hadds : ((t.shed body).countBody id task).pool.Adds t'.pool [] := by
    rw [hpool']
    exact .refl hcount.adds.sound
  exact ⟨hcount.before ⟨.idle hframe hadds, hcount.spans.outlive hr hempty,
    fun c _ hl => hr.keeps hl (Finset.notMem_empty c), hkeeps, nofun, fun _ => .empty⟩ hw, hraise⟩

theorem leaves_again (ht : t.tasks.get? id = some task) (hs : t.tasks.Spans [body] Y)
    (hid : id ∉ Y) (ha : t.tasks.Sound) (hpool : t.pool.Sound) (hp : g → p.Closed)
    (hb : g → p.Bound task.node task.kind) (hk : task.kind.isRepeat = true)
    (h : rebind p room id task b ((t.shed body).countBody id task) = .ok fresh t')
    (hw : (t'.adopt id fresh).tasks.NoWrap) :
    ∃ W, Leaves g ok p t (t'.adopt id fresh) [id] ({id} ∪ Y) ({id} ∪ W) ∅ [] ∧
      (t'.adopt id fresh).tasks.get? id = some (task.countBody.adopt fresh) := by
  have hcount : Leaves g False p t _ [id] _ _ ∅ [] := leaves_countBody ht hs hid ha hpool
  have hparent : ((t.shed body).countBody id task).tasks.Parent id task.countBody [] ∅ :=
    ⟨get?_countBody ht hs hid ha, .nil, Finset.notMem_empty id⟩
  obtain ⟨tree, W, hr, hh, hfitW, hpool', hkeeps⟩ := rebind_ok hcount.replaces.sound h hp hb hk
  obtain ⟨hadopt, hradopt⟩ := hparent.adopt hr hh
  have hspans := hadopt.spans
  rw [Finset.empty_union] at hspans hradopt
  rw [Finset.union_empty] at hradopt
  have hidW : id ∉ W := by
    have := hadopt.apart
    rwa [Finset.empty_union] at this
  have hstep : Leaves g False p ((t.shed body).countBody id task) (t'.adopt id fresh) [id] {id}
      ({id} ∪ W) ∅ [] := by
    refine ⟨.idle hradopt ?_, hspans, ?_, hkeeps.trans (.of_eq rfl rfl), nofun,
      fun _ => .empty⟩
    · rw [show (t'.adopt id fresh).pool = _ from hpool']
      exact .refl hcount.adds.sound
    · intro c hc _
      rw [List.mem_singleton.1 hc]
      exact Arena.contains_of_get? hadopt.get?
  refine ⟨W, { hcount.before hstep hw with fit := ?_ }, hadopt.get?⟩
  intro _ hfit
  have hself := hfit id (Finset.mem_union_left _ (Finset.mem_singleton_self id)) task ht
  have hmod : t'.tasks.Replaces (t'.adopt id fresh).tasks {id} {id} :=
    hr.sound.replaces_modify (Finset.mem_singleton_self id)
  refine Arena.Fit.union ?_
    (hfitW.apart hh.spans hmod (Finset.disjoint_singleton_left.2 hidW))
  intro k hk task' htask'
  rw [Finset.mem_singleton.1 hk, show (t'.adopt id fresh).tasks.get? id = _ from hadopt.get?,
    Option.some.injEq] at htask'
  subst htask'
  refine ⟨fun hg => bound_countBody (hself.bound hg), fun _ _ => ⟨fresh, rfl, ?_⟩⟩
  exact Arena.contains_modify.trans (hh.contains (List.mem_singleton_self fresh))

end Bodies

namespace Job

/-- The tasks that a job is about. -/
def roots : Job → List TaskId
  | .task id => [id]
  | .sequence ids _ => ids
  | .bodies _ id _ => [id]

/-- The state that a job hands over: the last body of a `repeat` ends it. -/
def conclude : Job → Except PatternError Status → Turn → Turn
  | .bodies _ id _, r, t => t.close id r
  | _, _, t => t

def Ready : Job → Turn → Prop
  | .task id, t => t.tasks.contains id = true
  | .sequence _ _, _ => True
  | .bodies _ id _, t => ∃ task, t.tasks.get? id = some task ∧ task.isFinished = false ∧
    task.kind.isRepeat = true

end Job

/-- The bullets that a task put into play, if it is a fire. -/
def Call.fired (c : Call) : List BulletId :=
  match c.before.tasks.get? c.task with
  | some task => if task.kind.isFire then c.after.pool.ids.drop c.before.pool.ids.length else []
  | none => []

/-- The task that was run is live and of the bullet's own pattern, it fails only as the pattern
allows, and the slots are in order before and after. -/
structure Call.Safe (g : Prop) (p : Pattern) (c : Call) : Prop where
  answer : ∀ e, c.answer = .error e → g → p.Raises e
  task : ∃ task, c.before.tasks.get? c.task = some task ∧ (g → p.Bound task.node task.kind)
  tasks : c.before.tasks.Sound ∧ c.after.tasks.Sound
  pool : c.before.pool.Sound ∧ c.after.pool.Sound

/-- What a job needs in order to run well. -/
structure Starts (g : Prop) (p : Pattern) (job : Job) (X : Finset TaskId) (t : Turn) : Prop where
  spans : t.tasks.Spans job.roots X
  tasks : t.tasks.Sound
  pool : t.pool.Sound
  fit : t.tasks.Fit g p X
  ready : job.Ready t

/-- What a run has done. -/
structure Outcome (g : Prop) (p : Pattern) (job : Job) (X : Finset TaskId) (t : Turn)
    (calls : List Call) (r : Except PatternError Status) (t' : Turn) (X' N : Finset TaskId)
    (shots : List Bullet) : Prop where
  leaves : Leaves g (Succeeds r) p t (job.conclude r t') job.roots X X' N shots
  fired : shots.map Bullet.id = calls.flatMap Call.fired
  raises : ∀ e, r = .error e → g → p.Raises e
  safe : ∀ c ∈ calls, c.Safe g p
  within : ∀ c ∈ calls, t.Keeps c.before

variable {X' N : Finset TaskId} {cs : List TaskId} {shots : List Bullet}

theorem Leaves.ids (h : Leaves g ok p t t' cs X X' N shots) :
    t'.pool.ids.drop t.pool.ids.length = shots.map Bullet.id := by
  rw [h.adds.ids, List.drop_left]

theorem Starts.live (h : Starts g p (.task id) X t) :
    ∃ task, t.tasks.get? id = some task ∧ id ∈ X ∧ task.Fits g p t.tasks := by
  obtain ⟨task, ht⟩ := Arena.contains_iff.1 h.ready
  have hid := h.spans.mem_of_live (List.mem_singleton_self id) h.ready
  exact ⟨task, ht, hid, h.fit id hid task ht⟩

theorem Starts.safe (h : Starts g p (.task id) X t) (hr : ∀ e, r = .error e → g → p.Raises e)
    (hl : Leaves g ok p t t' [id] X X' N shots) : Call.Safe g p ⟨id, t, r, t'⟩ := by
  obtain ⟨task, ht, _, hf⟩ := h.live
  exact ⟨hr, ⟨task, ht, hf.bound⟩, ⟨h.tasks, hl.replaces.sound⟩, h.pool, hl.adds.sound⟩

theorem fired_idle : Call.fired ⟨id, t, r, t⟩ = [] := by
  unfold Call.fired
  split
  · split
    · exact List.drop_length
    · rfl
  · rfl

theorem fired_of_kind (ht : t.tasks.get? id = some task) (hk : task.kind.isFire = false) :
    Call.fired ⟨id, t, r, t'⟩ = [] := by
  simp only [Call.fired, ht, hk]
  rfl

theorem Starts.idle (h : Starts g p (.task id) X t) (hr : ∀ e, r = .error e → g → p.Raises e) :
    Outcome g p (.task id) X t [⟨id, t, r, t⟩] r t X ∅ [] where
  leaves := .refl h.spans h.tasks h.pool
  fired := by simp [fired_idle]
  raises := hr
  safe c hc := by
    rw [List.mem_singleton.1 hc]
    exact h.safe hr (.refl h.spans h.tasks h.pool : Leaves g True p t t [id] X X ∅ [])
  within c hc := by
    rw [List.mem_singleton.1 hc]
    exact .refl t

/-- A job that is started from a state that some quiet steps lead to. -/
theorem Leaves.starts (h : Leaves g True p t t' cs X X' ∅ []) (hf : t.tasks.Fit g p X)
    (hroots : job.roots = cs) (hr : job.Ready t') : Starts g p job X' t' where
  spans := hroots ▸ h.spans
  tasks := h.replaces.sound
  pool := h.adds.sound
  fit := h.fit trivial hf
  ready := hr

theorem noWrap_close (ha : t.tasks.Sound) (hw : (t.close id r).tasks.NoWrap) : t.tasks.NoWrap :=
  (evolves_close ha).grows.noWrap hw

theorem noWrap_countBody (ha : t.tasks.Sound)
    (hw : ((t.shed body).countBody id task).tasks.NoWrap) : t.tasks.NoWrap :=
  (evolves_countBody body id task ha).grows.noWrap hw

theorem close_of_ne (hr : r ≠ .ok .ended) : t.close id r = t := by
  unfold close
  split
  · exact absurd rfl hr
  · rfl

section Task

theorem Starts.leaves_start (h : Starts g p (.task id) X t) :
    Leaves g ok p t (t.start id) [id] X X ∅ [] := by
  obtain ⟨_, _, hid, _⟩ := h.live
  exact Turn.leaves_start h.spans h.tasks h.pool hid

theorem Starts.close (h : Starts g p (.task id) X t)
    (hl : Leaves g ok p (t.start id) t' [id] X X' N shots) (hw : (t'.close id r).tasks.NoWrap) :
    Leaves g ok p t (t'.close id r) [id] X X' N shots := by
  have hw' := noWrap_close hl.replaces.sound hw
  have hlive : (t.start id).tasks.contains id = true := Arena.contains_modify.trans h.ready
  have hid := hl.spans.mem_of_live (List.mem_singleton_self id)
    (hl.alive id (List.mem_singleton_self id) hlive)
  exact (hl.after h.leaves_start hw').before
    (leaves_close hl.spans hl.replaces.sound hl.adds.sound hid) hw

theorem Starts.leaf (h : Starts g p (.task id) X t) (hp : g → p.Closed)
    (ht : t.tasks.get? id = some task) (hf : task.isFinished = false)
    (ha : Acts p id task (t.start id) r t') (hw : (t'.close id r).tasks.NoWrap) :
    ∃ X' N shots, Outcome g p (.task id) X t [⟨id, t, r, t'.close id r⟩] r (t'.close id r) X' N
      shots := by
  have hs : Starts g p (.task id) X (t.start id) :=
    h.leaves_start.starts h.fit rfl (Arena.contains_modify.trans h.ready)
  have hw' := noWrap_close (ha.evolves hs.tasks).sound hw
  obtain ⟨N, shots, hl, hfire, hraise⟩ :=
    ha.leaves (get?_start ht) hf hs.spans hs.tasks hs.pool hs.fit hp hw'
  have hleaves := h.close hl hw
  refine ⟨X, N, shots, hleaves, ?_, hraise, ?_, ?_⟩
  · rw [List.flatMap_cons, List.flatMap_nil, List.append_nil]
    cases hk : task.kind.isFire with
    | true => simp only [Call.fired, ht, hk, if_true, hleaves.ids]
    | false => rw [fired_of_kind ht hk, hfire hk, List.map_nil]
  · intro c hc
    rw [List.mem_singleton.1 hc]
    exact h.safe hraise hleaves
  · intro c hc
    rw [List.mem_singleton.1 hc]
    exact .refl t

theorem Starts.call (h : Starts g p (.task id) X t) (ht : t.tasks.get? id = some task)
    (hk : task.kind.isFire = false) {final : Turn}
    (hl : Leaves g (Succeeds r) p t final [id] X X' N shots)
    (hfired : shots.map Bullet.id = calls.flatMap Call.fired)
    (hraise : ∀ e, r = .error e → g → p.Raises e) (hsafe : ∀ c ∈ calls, c.Safe g p)
    (hin : ∀ c ∈ calls, t.Keeps c.before) :
    Outcome g p (.task id) X t (⟨id, t, r, final⟩ :: calls) r final X' N shots where
  leaves := hl
  fired := by rw [hfired, List.flatMap_cons, fired_of_kind ht hk, List.nil_append]
  raises := hraise
  safe c hc := by
    rcases List.mem_cons.1 hc with rfl | hc
    · exact h.safe hraise hl
    · exact hsafe c hc
  within c hc := by
    rcases List.mem_cons.1 hc with rfl | hc
    · exact .refl t
    · exact hin c hc

theorem Starts.children (h : Starts g p (.task id) X t) (ht : t.tasks.get? id = some task) :
    ∃ Y, X = {id} ∪ Y ∧ id ∉ Y ∧ Starts g p (.sequence task.children .ended) Y (t.start id) := by
  have hs : Starts g p (.task id) X (t.start id) :=
    h.leaves_start.starts h.fit rfl (Arena.contains_modify.trans h.ready)
  obtain ⟨Y, hY, hid, rfl⟩ := hs.spans.of_live (get?_start ht)
  exact ⟨Y, rfl, hid, hY, hs.tasks, hs.pool, hs.fit.mono Finset.subset_union_right, trivial⟩

theorem Starts.composite (h : Starts g p (.task id) X t) (ht : t.tasks.get? id = some task)
    (hk : task.kind = .action ∨ task.kind = .bullet) {Y Y' : Finset TaskId} (hX : X = {id} ∪ Y)
    (hid : id ∉ Y)
    (ho : Outcome g p (.sequence task.children .ended) Y (t.start id) calls r t' Y' N shots)
    (hw : (t'.close id r).tasks.NoWrap) :
    Outcome g p (.task id) X t (⟨id, t, r, t'.close id r⟩ :: calls) r (t'.close id r) ({id} ∪ Y') N
      shots := by
  have hstart : Leaves g True p t (t.start id) [id] X X ∅ [] := h.leaves_start
  have hunder := Leaves.under (get?_start ht) hid ho.leaves
  rw [← hX] at hunder
  exact h.call ht (by rcases hk with hk | hk <;> rw [hk] <;> rfl) (h.close hunder hw) ho.fired
    ho.raises ho.safe fun c hc => hstart.keeps.trans (ho.within c hc)

theorem Counts.leaves {st : RepeatState} {times : UInt32} (h : Counts p id task st t times t₁)
    (ht : t.tasks.get? id = some (task.advance .running)) (hk : task.kind = .repeat st)
    (hf : task.isFinished = false) (hs : t.tasks.Spans [id] X) (ha : t.tasks.Sound)
    (hpool : t.pool.Sound) :
    Leaves g ok p t t₁ [id] X X ∅ [] ∧ ∀ room left, (Job.bodies room id left).Ready t₁ := by
  have hid := hs.mem_of_live (List.mem_singleton_self id) (Arena.contains_of_get? ht)
  have hrun := isFinished_running hf
  cases h with
  | known =>
    exact ⟨.refl hs ha hpool, fun _ _ => ⟨_, ht, hrun, by simp [Task.advance, hk,
      TaskKind.isRepeat]⟩⟩
  | finds hn =>
    refine ⟨.modify hs ha hpool hid rfl rfl ⟨⟨rfl, rfl, rfl, rfl⟩, rfl, ?_⟩ (fun _ => rfl) ?_,
      fun _ _ => ⟨{ task.advance .running with kind := .repeat { st with times := some times } },
        ?_, hrun, rfl⟩⟩
    · rcases hn with rfl | ⟨wanted, rfl⟩
      · exact .refl _
      · exact .push _ trivial
    · intro task' ht' hfits
      rw [ht, Option.some.injEq] at ht'
      subst ht'
      refine ⟨fun hg => (hfits.bound hg).of_shape ?_, fun hfin _ => hfits.held hfin ?_⟩
      · simp [Task.advance, hk, TaskKind.shape]
      · simp [Task.advance, hk, TaskKind.holdsOne]
    · rw [Arena.get?_modify, if_pos rfl, ht]
      rfl

theorem Starts.bodies (h : Starts g p (.task id) X t) (ht : t.tasks.get? id = some task)
    (hf : task.isFinished = false) {st : RepeatState} {times : UInt32}
    (hk : task.kind = .repeat st) (hc : Counts p id task st (t.start id) times t₁)
    (room left : Nat) (hw : t₁.tasks.NoWrap) :
    Leaves g True p t t₁ [id] X X ∅ [] ∧ Starts g p (.bodies room id left) X t₁ := by
  have hstart : Leaves g True p t (t.start id) [id] X X ∅ [] := h.leaves_start
  obtain ⟨hcount, hready⟩ := hc.leaves (g := g) (get?_start ht) hk hf hstart.spans
    hstart.replaces.sound hstart.adds.sound
  have hl := hstart.before hcount hw
  exact ⟨hl, hl.starts h.fit rfl (hready room left)⟩

theorem Starts.repeat (h : Starts g p (.task id) X t) (ht : t.tasks.get? id = some task)
    {st : RepeatState} (hk : task.kind = .repeat st) (hl : Leaves g True p t t₁ [id] X X ∅ [])
    {room left : Nat} (ho : Outcome g p (.bodies room id left) X t₁ calls r t' X' N shots)
    (hw : (t'.close id r).tasks.NoWrap) :
    Outcome g p (.task id) X t (⟨id, t, r, t'.close id r⟩ :: calls) r (t'.close id r) X' N
      shots := by
  have hkind : task.kind.isFire = false := by
    rw [hk]
    rfl
  exact h.call ht hkind (ho.leaves.after hl hw) ho.fired ho.raises ho.safe fun c hc =>
    hl.keeps.trans (ho.within c hc)

end Task

section Sequence

variable {c : TaskId} {status status' answer : Status} {Xc Xs Xc' Xs' N' : Finset TaskId}
  {more : List Call} {rest : List Bullet}

theorem Starts.of_cons (h : Starts g p (.sequence (c :: cs) status) X t) :
    ∃ Xc Xs, X = Xc ∪ Xs ∧ Disjoint Xc Xs ∧ t.tasks.Spans [c] Xc ∧
      (∀ status, Starts g p (.sequence cs status) Xs t) ∧
      (t.tasks.isFinished c = false → Starts g p (.task c) Xc t) := by
  obtain ⟨Xc, Xs, hc, hs, hd, rfl⟩ := h.spans.of_cons
  refine ⟨Xc, Xs, rfl, hd, hc, ?_, ?_⟩
  · intro _
    exact ⟨hs, h.tasks, h.pool, h.fit.mono Finset.subset_union_right, trivial⟩
  · intro hf
    refine ⟨hc, h.tasks, h.pool, h.fit.mono Finset.subset_union_left, ?_⟩
    unfold Arena.isFinished at hf
    split at hf
    · rename_i ht
      exact Arena.contains_of_get? ht
    · cases hf

theorem Starts.done (h : Starts g p (.sequence [] status) X t) :
    Outcome g p (.sequence [] status) X t [] (.ok status) t X ∅ [] where
  leaves := .refl h.spans h.tasks h.pool
  fired := rfl
  raises _ h := nomatch h
  safe _ h := absurd h List.not_mem_nil
  within _ h := absurd h List.not_mem_nil

theorem Leaves.head (h : Leaves g ok p t t' [c] Xc Xc' N shots) (hs : t.tasks.Spans cs Xs)
    (hd : Disjoint Xc Xs) (hw : t'.tasks.NoWrap) :
    Leaves g ok p t t' (c :: cs) (Xc ∪ Xs) (Xc' ∪ Xs) N shots :=
  h.frame hs hd (.refl _) hw

theorem Leaves.tail (h : Leaves g ok p t t' cs Xs Xs' N shots) (hc : t.tasks.Spans [c] Xc)
    (hd : Disjoint Xc Xs) (hw : t'.tasks.NoWrap) :
    Leaves g ok p t t' (c :: cs) (Xc ∪ Xs) (Xc ∪ Xs') N shots := by
  rw [Finset.union_comm Xc, Finset.union_comm Xc]
  exact h.frame hc hd.symm (List.perm_append_singleton c cs) hw

theorem Outcome.next (h : Outcome g p (.task c) Xc t calls (.ok answer) t₁ Xc' N shots)
    (hs : Starts g p (.sequence cs status) Xs t) (hd : Disjoint Xc Xs) (hw : t₁.tasks.NoWrap) :
    Disjoint Xc' Xs ∧ t₁.tasks.Spans [c] Xc' ∧ Starts g p (.sequence cs status') Xs t₁ := by
  have hl := h.leaves
  have hlive : ∀ k ∈ Xs, t.tasks.contains k = true := fun k hk => hs.spans.contains hk
  have hd' := (Finset.disjoint_union_left.1 (hl.replaces.disjoint hlive hd)).1
  refine ⟨hd', hl.spans, hs.spans.apart hl.replaces hd hw, hl.replaces.sound, hl.adds.sound, ?_,
    trivial⟩
  exact hs.fit.apart hs.spans hl.replaces hd

theorem Outcome.append (h : Outcome g p (.task c) Xc t calls (.ok answer) t₁ Xc' N shots)
    (h' : Outcome g p (.sequence cs status') Xs t₁ more r t' Xs' N' rest)
    (hs : t.tasks.Spans cs Xs) (hd : Disjoint Xc Xs) (hd' : Disjoint Xc' Xs)
    (hw₁ : t₁.tasks.NoWrap) (hw : t'.tasks.NoWrap) :
    Outcome g p (.sequence (c :: cs) status) (Xc ∪ Xs) t (calls ++ more) r t' (Xc' ∪ Xs') (N ∪ N')
      (shots ++ rest) where
  leaves := ((h.leaves.head hs hd hw₁).weaken fun _ => ⟨answer, rfl⟩).trans
    (h'.leaves.tail h.leaves.spans hd' hw) hw
  fired := by rw [List.map_append, List.flatMap_append, h.fired, h'.fired]
  raises := h'.raises
  safe k hk := (List.mem_append.1 hk).elim (h.safe k) (h'.safe k)
  within k hk := (List.mem_append.1 hk).elim (h.within k) fun hk =>
    h.leaves.keeps.trans (h'.within k hk)

end Sequence

section Body

variable {room left : Nat} {rest : List TaskId} {fresh : TaskId} {task' : Task}
  {e : PatternError} {Y' : Finset TaskId}

/-- A `repeat` that is not over holds one live body. -/
theorem Starts.held (h : Starts g p (.bodies room id left) X t)
    (ht : t.tasks.get? id = some task) :
    ∃ body Y, task.children = [body] ∧ X = {id} ∪ Y ∧ id ∉ Y ∧ Starts g p (.task body) Y t ∧
      task.isFinished = false ∧ task.kind.isRepeat = true ∧ (g → p.Bound task.node task.kind) := by
  obtain ⟨_, ht', hf, hk⟩ := h.ready
  rw [ht, Option.some.injEq] at ht'
  subst ht'
  obtain ⟨Y, hY, hid, rfl⟩ := h.spans.of_live ht
  have hself := h.fit id (Finset.mem_union_left _ (Finset.mem_singleton_self id)) task ht
  have hone : task.kind.holdsOne = true := by
    revert hk
    cases task.kind <;> simp [TaskKind.isRepeat, TaskKind.holdsOne]
  obtain ⟨body, hc, hl⟩ := hself.held hf hone
  rw [hc] at hY
  exact ⟨body, Y, hc, rfl, hid, ⟨hY, h.tasks, h.pool, h.fit.mono Finset.subset_union_right, hl⟩,
    hf, hk, hself.bound⟩

theorem Outcome.held (h : Outcome g p (.task body) Y t calls r t₁ Y' N shots)
    (ht : t.tasks.get? id = some task) (hid : id ∉ Y) (hc : task.children = [body]) :
    t₁.tasks.get? id = some task ∧ id ∉ Y' ∧
      Leaves g (Succeeds r) p t t₁ [id] ({id} ∪ Y) ({id} ∪ Y') N shots := by
  have hlive := Arena.contains_of_get? ht
  have hl : Leaves g (Succeeds r) p t t₁ task.children Y Y' N shots := hc ▸ h.leaves
  have hsingle : ∀ k ∈ ({id} : Finset TaskId), t.tasks.contains k = true := fun k hk => by
    rw [Finset.mem_singleton.1 hk]
    exact hlive
  have hd := hl.replaces.disjoint hsingle (Finset.disjoint_singleton_right.2 hid)
  refine ⟨by rw [hl.replaces.kept id hlive hid, ht], ?_, .under ht hid hl⟩
  exact Finset.disjoint_singleton_right.1 (Finset.disjoint_union_left.1 hd).1

theorem Outcome.hold (h : Outcome g p (.task body) Y t calls r t' Y' N shots)
    (ht : t.tasks.get? id = some task) (hid : id ∉ Y) (hc : task.children = [body])
    (he : r ≠ .ok .ended) :
    Outcome g p (.bodies room id left) ({id} ∪ Y) t calls r t' ({id} ∪ Y') N shots where
  leaves := by
    rw [Job.conclude, close_of_ne he]
    exact (h.held ht hid hc).2.2
  fired := h.fired
  raises := h.raises
  safe := h.safe
  within := h.within

theorem get?_shed (ht : t.tasks.get? id = some task) (hs : t.tasks.Spans [body] Y) (hid : id ∉ Y)
    (ha : t.tasks.Sound) : (t.shed body).tasks.get? id = some task := by
  rw [shed, (hs.release ha).kept id (Arena.contains_of_get? ht) hid, ht]

theorem Starts.spent (h : Starts g p (.bodies room id left) X t) (ht : t.tasks.get? id = some task)
    (hc : task.children = body :: rest) :
    Outcome g p (.bodies room id left) X t [] (.ok .ended) (t.shed body) {id} ∅ [] := by
  obtain ⟨c, Y, hone, rfl, hid, hbody, _, _, _⟩ := h.held ht
  cases hone.symm.trans hc
  refine ⟨?_, rfl, (fun _ h => nomatch h), fun _ h => absurd h List.not_mem_nil,
    fun _ h => absurd h List.not_mem_nil⟩
  exact .strip ht hbody.spans hid h.tasks h.pool (fun c hm => hone ▸ hm)
    fun _ hf => ⟨isFinished_finished, hf.bound⟩

theorem Starts.last (h : Starts g p (.bodies room id left) X t) {Y : Finset TaskId}
    (ho : Outcome g p (.task body) Y t calls (.ok .ended) t₁ Y' N shots)
    (hX : X = {id} ∪ Y) (hid : id ∉ Y) (ht : t.tasks.get? id = some task)
    (hc : task.children = [body]) (ht' : (t₁.shed body).tasks.get? id = some task')
    (hw : (((t₁.shed body).countBody id task').close id (.ok .ended)).tasks.NoWrap) :
    Outcome g p (.bodies room id left) X t calls (.ok .ended) ((t₁.shed body).countBody id task')
      {id} N shots := by
  obtain ⟨ht₁, hid', hunder⟩ := ho.held ht hid hc
  rw [get?_shed ht₁ ho.leaves.spans hid' ho.leaves.replaces.sound, Option.some.injEq] at ht'
  subst ht' hX
  refine ⟨?_, ho.fired, (fun _ h => nomatch h), ho.safe, ho.within⟩
  exact hunder.before (leaves_last ht₁ ho.leaves.spans hid' ho.leaves.replaces.sound
    ho.leaves.adds.sound hw) hw

theorem Starts.unbound (h : Starts g p (.bodies room id left) X t) {Y : Finset TaskId}
    (hp : g → p.Closed) (ho : Outcome g p (.task body) Y t calls (.ok .ended) t₁ Y' N shots)
    (hX : X = {id} ∪ Y) (hid : id ∉ Y) (ht : t.tasks.get? id = some task)
    (hc : task.children = [body]) (hk : task.kind.isRepeat = true)
    (hbound : g → p.Bound task.node task.kind)
    (ht' : (t₁.shed body).tasks.get? id = some task')
    (hb : rebind p room id task' t₁.bullet ((t₁.shed body).countBody id task') = .error e t')
    (hw : t'.tasks.NoWrap) :
    Outcome g p (.bodies room id left) X t calls (.error e) t' {id} N shots := by
  obtain ⟨ht₁, hid', hunder⟩ := ho.held ht hid hc
  rw [get?_shed ht₁ ho.leaves.spans hid' ho.leaves.replaces.sound, Option.some.injEq] at ht'
  subst ht' hX
  obtain ⟨hl, hraise⟩ := leaves_unbound ht₁ ho.leaves.spans hid' ho.leaves.replaces.sound
    ho.leaves.adds.sound hp hbound hk hb hw
  refine ⟨?_, ho.fired, fun _ h => by cases h; exact hraise, ho.safe, ho.within⟩
  exact (hunder.weaken fun _ => ⟨_, rfl⟩).before (hl.weaken not_succeeds) hw

theorem Starts.again (h : Starts g p (.bodies room id (left + 1)) X t) {Y : Finset TaskId}
    (hp : g → p.Closed) (ho : Outcome g p (.task body) Y t calls (.ok .ended) t₁ Y' N shots)
    (hX : X = {id} ∪ Y) (hid : id ∉ Y) (ht : t.tasks.get? id = some task)
    (hc : task.children = [body]) (hf : task.isFinished = false) (hk : task.kind.isRepeat = true)
    (hbound : g → p.Bound task.node task.kind)
    (ht' : (t₁.shed body).tasks.get? id = some task')
    (hb : rebind p room id task' t₁.bullet ((t₁.shed body).countBody id task') = .ok fresh t')
    (hw : (t'.adopt id fresh).tasks.NoWrap) :
    ∃ W, Leaves g True p t (t'.adopt id fresh) [id] X W N shots ∧
      Starts g p (.bodies room id left) W (t'.adopt id fresh) := by
  obtain ⟨ht₁, hid', hunder⟩ := ho.held ht hid hc
  rw [get?_shed ht₁ ho.leaves.spans hid' ho.leaves.replaces.sound, Option.some.injEq] at ht'
  subst ht' hX
  obtain ⟨W, hl, hget⟩ := leaves_again ht₁ ho.leaves.spans hid' ho.leaves.replaces.sound
    ho.leaves.adds.sound hp hbound hk hb hw
  have hall := (hunder.weaken fun _ => ⟨_, rfl⟩).before hl hw
  refine ⟨_, hall, hall.spans, hall.replaces.sound, hall.adds.sound,
    hall.fit trivial h.fit, _, hget, hf, ?_⟩
  unfold Task.countBody Task.adopt
  revert hk
  cases task.kind <;> simp [TaskKind.isRepeat]

theorem Outcome.bodies {more : List Call} {next : List Bullet} {Y W N' : Finset TaskId}
    (h : Outcome g p (.task body) Y t calls (.ok .ended) t₁ Y' N shots)
    (h' : Outcome g p (.bodies room id left) W t'' more r t' X' N' next)
    (hl : Leaves g True p t t'' [id] X W N shots)
    (hw : (t'.close id r).tasks.NoWrap) :
    Outcome g p (.bodies room id (left + 1)) X t (calls ++ more) r t' X' (N ∪ N')
      (shots ++ next) where
  leaves := hl.trans h'.leaves hw
  fired := by rw [List.map_append, List.flatMap_append, h.fired, h'.fired]
  raises := h'.raises
  safe k hk := (List.mem_append.1 hk).elim (h.safe k) (h'.safe k)
  within k hk := (List.mem_append.1 hk).elim (h.within k) fun hk =>
    hl.keeps.trans (h'.within k hk)

end Body

/-- A run keeps the tasks of its bullet a forest of their own, and so do the bullets it fires. -/
theorem Runs.outcome (h : Runs p fuel job t calls r t') (hp : g → p.Closed)
    (hs : Starts g p job X t) (hw : (job.conclude r t').tasks.NoWrap) :
    ∃ X' N shots, Outcome g p job X t calls r t' X' N shots := by
  induction h generalizing X with
  | exhausted =>
    refine ⟨X, ∅, [], hs.idle ?_⟩
    intro e he _
    cases he
    exact Pattern.raises_recursionLimit
  | stale ht =>
    obtain ⟨task, ht', _⟩ := hs.live
    rw [ht] at ht'
    cases ht'
  | finished => exact ⟨X, ∅, [], hs.idle nofun⟩
  | leaf ht hf ha => exact hs.leaf hp ht hf ha hw
  | composite ht hf hk hr ih =>
    obtain ⟨Y, hX, hid, hkids⟩ := hs.children ht
    obtain ⟨Y', N, shots, ho⟩ := ih hkids (noWrap_close (hr.evolves hkids.tasks).sound hw)
    exact ⟨_, N, shots, hs.composite ht hk hX hid ho hw⟩
  | «repeat» ht hf hk hc hr ih =>
    have hcount := (evolves_start _ hs.tasks).bind hc.evolves
    have hrun := hr.evolves hcount.sound
    have hw₁ := hrun.grows.noWrap (noWrap_close hrun.sound hw)
    obtain ⟨hl, hbodies⟩ := hs.bodies ht hf hk hc _ _ hw₁
    obtain ⟨X', N, shots, ho⟩ := ih hbodies hw
    exact ⟨X', N, shots, hs.repeat ht hk hl ho hw⟩
  | done => exact ⟨X, ∅, [], hs.done⟩
  | skip hf hr ih =>
    obtain ⟨Xc, Xs, rfl, hd, hc, htail, _⟩ := hs.of_cons
    obtain ⟨Xs', N, shots, ho⟩ := ih (htail _) hw
    exact ⟨_, N, shots, ho.leaves.tail hc hd hw, ho.fired, ho.raises, ho.safe,
      ho.within⟩
  | halt hf hr he ho ih =>
    obtain ⟨Xc, Xs, rfl, hd, _, htail, hhead⟩ := hs.of_cons
    obtain ⟨Xc', N, shots, ho⟩ := ih (hhead hf) hw
    exact ⟨_, N, shots, ho.leaves.head (htail .ended).spans hd hw, ho.fired, ho.raises, ho.safe,
      ho.within⟩
  | cut hf hr _ _ ih =>
    obtain ⟨Xc, Xs, rfl, hd, _, htail, hhead⟩ := hs.of_cons
    obtain ⟨Xc', N, shots, ho⟩ := ih (hhead hf) hw
    refine ⟨Xc' ∪ Xs, N, shots, ?_, ho.fired, (fun _ h => nomatch h), ho.safe, ho.within⟩
    exact (ho.leaves.head (htail .ended).spans hd hw).weaken fun _ => ⟨_, rfl⟩
  | next hf hr _ _ hs' ih ih' =>
    obtain ⟨Xc, Xs, rfl, hd, _, htail, hhead⟩ := hs.of_cons
    have hw₁ := (hs'.evolves (hr.evolves hs.tasks).sound).grows.noWrap hw
    obtain ⟨Xc', N, shots, ho⟩ := ih (hhead hf) hw₁
    obtain ⟨hd', _, hrest⟩ := ho.next (htail .ended) hd hw₁
    obtain ⟨Xs', N', more, ho'⟩ := ih' hrest hw
    exact ⟨_, _, _, ho.append ho' (htail .ended).spans hd hd' hw₁ hw⟩
  | lost ht =>
    obtain ⟨task, ht', _⟩ := hs.ready
    rw [ht] at ht'
    cases ht'
  | bare ht hc =>
    obtain ⟨c, Y, hone, _⟩ := hs.held ht
    cases hone.symm.trans hc
  | spent ht hc => exact ⟨{_}, ∅, [], hs.spent ht hc⟩
  | hold ht hc hr he ih =>
    obtain ⟨c, Y, hone, rfl, hid, hbody, _, _, _⟩ := hs.held ht
    cases hone.symm.trans hc
    obtain ⟨Y', N, shots, ho⟩ := ih hbody (noWrap_close (hr.evolves hs.tasks).sound hw)
    exact ⟨_, N, shots, ho.hold ht hid hone he⟩
  | vacant ht hc hr hn ih =>
    obtain ⟨c, Y, hone, rfl, hid, hbody, _, _, _⟩ := hs.held ht
    cases hone.symm.trans hc
    have hrun := (hr.evolves hs.tasks).sound
    obtain ⟨Y', N, shots, ho⟩ := ih hbody (hrun.evolves_release.grows.noWrap hw)
    obtain ⟨ht₁, hid', _⟩ := ho.held ht hid hone
    rw [get?_shed ht₁ ho.leaves.spans hid' hrun] at hn
    cases hn
  | last ht hc hr ht' hl ih =>
    obtain ⟨c, Y, hone, hX, hid, hbody, _, _, _⟩ := hs.held ht
    cases hone.symm.trans hc
    have hrun := (hr.evolves hs.tasks).sound
    obtain ⟨Y', N, shots, ho⟩ := ih hbody
      (noWrap_countBody hrun (noWrap_close (evolves_countBody _ _ _ hrun).sound hw))
    exact ⟨_, N, shots, hs.last ho hX hid ht hone ht' hw⟩
  | unbound ht hc hr ht' hb ih =>
    obtain ⟨c, Y, hone, hX, hid, hbody, _, hk, hbound⟩ := hs.held ht
    cases hone.symm.trans hc
    have hbind := (evolves_countBody _ _ _ (hr.evolves hs.tasks).sound).bind fun h =>
      evolves_rebind h hb
    obtain ⟨Y', N, shots, ho⟩ := ih hbody (hbind.grows.noWrap hw)
    exact ⟨_, N, shots, hs.unbound hp ho hX hid ht hone hk hbound ht' hb hw⟩
  | again ht hc hr ht' hb hs' ih ih' =>
    obtain ⟨c, Y, hone, hX, hid, hbody, hf, hk, hbound⟩ := hs.held ht
    cases hone.symm.trans hc
    have hbind := (evolves_countBody _ _ _ (hr.evolves hs.tasks).sound).bind fun h =>
      evolves_rebind h hb
    have hrun := hs'.evolves (evolves_adopt _ _ hbind.sound).sound
    have hw₂ := hrun.grows.noWrap (noWrap_close hrun.sound hw)
    have hw₁ := hbind.grows.noWrap (Arena.grows_modify.noWrap hw₂)
    obtain ⟨Y', N, shots, ho⟩ := ih hbody hw₁
    obtain ⟨W, hl, hnext⟩ := hs.again hp ho hX hid ht hone hf hk hbound ht' hb hw₂
    obtain ⟨X', N', more, ho'⟩ := ih' hnext hw
    exact ⟨X', _, _, ho.bodies ho' hl hw⟩

end Barrage.Turn

import Barrage.Proofs.Reach
import Barrage.Proofs.Timing

namespace Barrage

namespace TaskKind

variable {kind kind' kind'' : TaskKind}

/-- The counter of a task of this kind is below what it counts up to. -/
def InRange : TaskKind → Prop
  | .repeat state => ∀ times, state.times = some times → state.done < times ∧ times ≤ maxRepeat
  | .changeDirection state | .changeSpeed state =>
    ∀ ramp, state.ramp = some ramp → ramp.elapsed < ramp.term
  | .accel state => ∀ ramp, state.ramp = some ramp → ramp.elapsed < ramp.term
  | _ => True

/-- What is left of a wait stays known and does not grow. -/
def Wanes (kind kind' : TaskKind) : Prop :=
  ∀ n, kind = .wait (some n) → ∃ m, kind' = .wait (some m) ∧ m ≤ n

theorem Wanes.refl (kind : TaskKind) : kind.Wanes kind := fun n h => ⟨n, h, UInt32.le_refl n⟩

theorem Wanes.trans (h₁ : kind.Wanes kind') (h₂ : kind'.Wanes kind'') : kind.Wanes kind'' := by
  intro n h
  obtain ⟨m, hm, hle⟩ := h₁ n h
  obtain ⟨l, hl, hle'⟩ := h₂ m hm
  exact ⟨l, hl, UInt32.le_trans hle' hle⟩

/-- A task that has not run has not begun to count. -/
theorem inRange_of_shape (h : kind.shape = kind) : kind.InRange := by
  rw [← h]
  cases kind <;> first | trivial | exact nofun

end TaskKind

namespace Arena

variable {S S' : Set TaskId} {a a' a'' : Arena} {id : TaskId} {task : Task} {f : Task → Task}
  {X Y : Finset TaskId} {r : Except PatternError Status}

/-- The tasks that are not over count within their range, those of `S` left aside. -/
def Counted (S : Set TaskId) (a : Arena) : Prop :=
  ∀ id task, a.get? id = some task → task.isFinished = false → id ∉ S → task.kind.InRange

/-- From `a` to `a'` waits do not grow, and in the end the tasks count within their range, those of
`S` left aside. -/
structure Tallies (S : Set TaskId) (a a' : Arena) : Prop extends a.Evolves a' where
  counted : a'.Counted S
  wanes : ∀ id task, a.get? id = some task →
    a'.IsDead id ∨ ∃ task', a'.get? id = some task' ∧ task.kind.Wanes task'.kind

theorem counted_empty : empty.Counted ∅ := nofun

theorem Counted.mono (h : a.Counted S) (hS : S ⊆ S') : a.Counted S' :=
  fun id task ht hf hid => h id task ht hf fun hm => hid (hS hm)

theorem Counted.of_inRange (h : a.Counted {id}) (ht : a.get? id = some task)
    (hr : task.kind.InRange) : a.Counted ∅ := by
  intro k task' ht' hf _
  by_cases hk : k = id
  · subst hk
    rw [ht, Option.some.injEq] at ht'
    exact ht' ▸ hr
  · exact h k task' ht' hf hk

theorem Sound.tallies (hs : a.Sound) (hc : a.Counted S) : a.Tallies S a where
  toEvolves := hs.evolves
  counted := hc
  wanes _ task ht := .inr ⟨task, ht, .refl _⟩

theorem Tallies.trans (h₁ : a.Tallies S a') (h₂ : a'.Tallies S' a'') : a.Tallies S' a'' where
  toEvolves := h₁.toEvolves.trans h₂.toEvolves
  counted := h₂.counted
  wanes id task ht := by
    rcases h₁.wanes id task ht with hd | ⟨task', ht', hw⟩
    · exact .inl (hd.grows h₂.grows)
    · apply (h₂.wanes id task' ht').imp_right
      rintro ⟨task'', ht'', hw'⟩
      exact ⟨task'', ht'', hw.trans hw'⟩

theorem Tallies.bind (h₁ : a.Tallies S a') (h₂ : a'.Sound → a'.Counted S → a'.Tallies S' a'') :
    a.Tallies S' a'' :=
  h₁.trans (h₂ h₁.sound h₁.counted)

theorem Tallies.mono (h : a.Tallies S a') (hS : S ⊆ S') : a.Tallies S' a' :=
  { h with counted := h.counted.mono hS }

/-- A change to one task is judged by what it makes of that task. -/
theorem Sound.tallies_modify (hs : a.Sound) (hc : a.Counted S) (hS : S ⊆ {id} ∪ S')
    (hf : ∀ task, a.get? id = some task → task.kind.Wanes (f task).kind ∧
      ((f task).isFinished = false → id ∉ S' → (f task).kind.InRange)) :
    a.Tallies S' (a.modify id f) where
  toEvolves := hs.evolves_modify
  counted k task ht hfin hk := by
    rw [get?_modify] at ht
    split at ht
    · rename_i he
      subst he
      obtain ⟨task', ht', rfl⟩ := Option.map_eq_some_iff.1 ht
      exact (hf task' ht').2 hfin hk
    · rename_i hne
      exact hc k task ht hfin fun hm => (hS hm).elim hne hk
  wanes k task ht := by
    right
    rw [get?_modify]
    split
    · rename_i he
      subst he
      exact ⟨f task, by rw [ht]; rfl, (hf task ht).1⟩
    · exact ⟨task, ht, .refl _⟩

/-- A change that leaves the kind of a task as it is, and does not take up a task that is over. -/
theorem Sound.tallies_kept (hs : a.Sound) (hc : a.Counted S)
    (hk : ∀ task, (f task).kind = task.kind)
    (hf : ∀ task, (f task).isFinished = false → task.isFinished = false) :
    a.Tallies S (a.modify id f) := by
  apply hs.tallies_modify hc Set.subset_union_right
  intro task ht
  rw [hk]
  exact ⟨.refl _, fun hfin hid => hc id task ht (hf task hfin) hid⟩

theorem Replaces.tallies (h : a.Replaces a' X Y) (hd : Disjoint X Y) (hc : a.Counted S)
    (hY : ∀ id ∈ Y, ∀ task, a'.get? id = some task → task.kind.InRange) : a.Tallies S a' where
  toEvolves := h.evolves
  counted id task ht hf hid := by
    rcases h.only id (contains_of_get? ht) with hm | ⟨hold, hX⟩
    · exact hY id hm task ht
    · exact hc id task (h.kept id hold hX ▸ ht) hf hid
  wanes id task ht := by
    by_cases hX : id ∈ X
    · exact .inl (h.dead id hX (Finset.disjoint_left.1 hd hX))
    · exact .inr ⟨task, (h.kept id (contains_of_get? ht) hX).trans ht, .refl _⟩

theorem Sound.tallies_release (hs : a.Sound) (hc : a.Counted S) : a.Tallies S (a.release id).2 := by
  obtain ⟨X, _, _, hr⟩ := hs.replaces_release id
  exact hr.tallies (Finset.disjoint_empty_right X) hc fun _ hm => absurd hm (Finset.notMem_empty _)

theorem Holds.inRange {owner : Option TaskId} {cs : List TaskId} {trees : List TaskTree}
    (h : a.Holds owner cs trees X) (hu : TaskTree.UnrunAll trees) :
    ∀ id ∈ X, ∀ task, a.get? id = some task → task.kind.InRange := by
  induction h with
  | nil => exact fun _ hm => absurd hm (Finset.notMem_empty _)
  | cons ht _ _ _ _ ihc ihs =>
    obtain ⟨⟨hkind, hbelow⟩, hrest⟩ := hu
    intro id hm task hget
    simp only [Finset.mem_union, Finset.mem_singleton] at hm
    rcases hm with (rfl | hm) | hm
    · rw [ht, Option.some.injEq] at hget
      subst hget
      exact TaskKind.inRange_of_shape hkind
    · exact ihc hbelow id hm task hget
    · exact ihs hrest id hm task hget

/-- The counters stay in range but for that of the task `id` in case it has ended: it is over only
once its frame is closed. -/
structure TalliesBut (id : TaskId) (r : Except PatternError Status) (a a' : Arena) : Prop where
  tallies : a.Tallies {id} a'
  counted : r ≠ .ok .ended → a'.Counted ∅

theorem Tallies.but (h : a.Tallies ∅ a') : a.TalliesBut id r a' :=
  ⟨h.mono (Set.empty_subset _), fun _ => h.counted⟩

theorem Tallies.andBut (h₁ : a.Tallies S a') (h₂ : a'.TalliesBut id r a'') :
    a.TalliesBut id r a'' :=
  ⟨h₁.trans h₂.tallies, h₂.counted⟩

end Arena

namespace Binder

variable {S : Set TaskId} {b : Binder} {owner : Option TaskId} {params : List Float32}
  {nodes : List NodeId} {s s' : BindState}

/-- Roots that are bound have not begun to count. -/
theorem tallies_bindRoots (hs : s.tasks.Sound) (hc : s.tasks.Counted S)
    {x : EStateM.Result PatternError BindState (List TaskId)}
    (h : b.bindRoots owner params nodes [] s = x) :
    match x with
    | .ok _ s' | .error _ s' => s.tasks.Tallies S s'.tasks := by
  cases x with
  | ok roots s' =>
    obtain ⟨trees, X, hd, hr, hh⟩ := roots_bound_as_denoted hs h
    exact hr.tallies (Finset.disjoint_empty_left X) hc (hh.inRange ((b.binds_unrun _).all hd))
  | error e s' =>
    obtain ⟨hr, _⟩ := bindRoots_error (g := False) hs h nofun nofun
    exact hr.tallies (Finset.disjoint_empty_left ∅) hc
      fun _ hm => absurd hm (Finset.notMem_empty _)

/-- A body that is bound has not begun to count. -/
theorem tallies_bindBody {room : Nat} {node : NodeId} {id : TaskId} (hs : s.tasks.Sound)
    (hc : s.tasks.Counted S) {x : EStateM.Result PatternError BindState TaskId}
    (h : b.bindBody (b.bindNode room) node id params s = x) :
    match x with
    | .ok _ s' | .error _ s' => s.tasks.Tallies S s'.tasks := by
  have hb := (b.follows_node room).body (b := b) hs node id params
  generalize hx : b.expandBody (b.expandNode room) node params s.random = y at hb
  rw [h] at hb
  cases hb with
  | @ok _ _ _ _ X hr hh =>
    have hbody : b.expandBody (b.expandNode room) node (CallChain.initial params).params s.random =
        _ := hx
    obtain ⟨_, y, _, hd, rfl⟩ := denotes_of_expandBody (b.finds_all_levels room) hbody
    exact hr.tallies (Finset.disjoint_empty_left X) hc
      (hh.inRange (b.binds_unrun room _ _ _ _ _ hd))
  | error hr =>
    exact hr.tallies (Finset.disjoint_empty_left ∅) hc
      fun _ hm => absurd hm (Finset.notMem_empty _)

end Binder

namespace Turn

variable {S : Set TaskId} {p : Pattern} {run : TaskId → Run Status} {room : Nat} {t t' : Turn}
  {id body fresh : TaskId} {task : Task} {r : Except PatternError Status} {status : Status}
  {b : Bullet}

section Steps

theorem tallies_start (id : TaskId) (hs : t.tasks.Sound) (hc : t.tasks.Counted S) :
    t.tasks.Tallies S (t.start id).tasks :=
  hs.tallies_kept hc (fun _ => rfl) fun _ => isFinished_advance

/-- A task that has ended is over once its frame is closed. -/
theorem tallies_close {a : Arena} (h : a.TalliesBut id r t.tasks) :
    a.Tallies ∅ (t.close id r).tasks := by
  unfold close
  split
  · apply h.tallies.trans
    apply h.tallies.sound.tallies_modify h.tallies.counted Set.subset_union_left
    intro task _
    refine ⟨.refl _, fun hf => ?_⟩
    rw [isFinished_finished] at hf
    cases hf
  · rename_i hne
    exact { h.tallies with counted := h.counted fun he => hne he }

theorem tallies_own {a : Arena} (fire : TaskId) (roots : List TaskId) (hs : a.Sound)
    (hc : a.Counted S) : a.Tallies S (own fire roots a) := by
  induction roots generalizing a with
  | nil => exact hs.tallies hc
  | cons root roots ih =>
    have hm : a.Tallies S (a.modify root fun task => { task with owner := some fire }) :=
      hs.tallies_kept hc (fun _ => rfl) fun _ hf => hf
    exact hm.bind ih

theorem tallies_rebind (hs : t.tasks.Sound) (hc : t.tasks.Counted S)
    {x : EStateM.Result PatternError Turn TaskId} (h : rebind p room id task b t = x) :
    t.tasks.Tallies S (state x).tasks := by
  subst h
  unfold rebind bindFor
  split
  · rename_i hm
    exact Binder.tallies_bindBody (s := ⟨t.tasks, _⟩) hs hc hm
  · rename_i hm
    exact Binder.tallies_bindBody (s := ⟨t.tasks, _⟩) hs hc hm

theorem tallies_adopt (id fresh : TaskId) (hs : t.tasks.Sound) (hc : t.tasks.Counted S) :
    t.tasks.Tallies S (t.adopt id fresh).tasks :=
  hs.tallies_kept hc (fun _ => rfl) fun _ hf => hf

/-- A `repeat` that counts a body is left aside, unless it is in range then. -/
theorem tallies_countBody (hs : t.tasks.Sound) (hc : t.tasks.Counted ∅)
    (hk : task.kind.isRepeat = true) (ht : (t.shed body).tasks.get? id = some task) :
    t.tasks.Tallies {id} ((t.shed body).countBody id task).tasks := by
  have hrel : t.tasks.Tallies ∅ (t.shed body).tasks := hs.tallies_release hc
  apply hrel.bind
  intro hs' hc'
  apply hs'.tallies_modify hc' (Set.empty_subset _)
  intro task' ht'
  rw [ht, Option.some.injEq] at ht'
  subst ht'
  refine ⟨?_, fun _ hid => absurd rfl hid⟩
  intro n hn
  rw [hn] at hk
  cases hk

end Steps

section Leaves

theorem lt_term_of_rampStatus {α : Type} {ramp : Ramp α} (h : rampStatus ramp ≠ .ended) :
    ramp.elapsed < ramp.term := by
  by_contra hlt
  apply h
  rw [rampStatus, Ramp.isDone, decide_eq_true (UInt32.not_lt.1 hlt)]
  rfl

variable (p run id task) in
/-- A task that has begun to count counts one more frame, and stays in range or ends. -/
theorem runKind_of_known (hl : task.kind.isLeaf = true) (hf : task.kind.isFire = false)
    (hk : task.kind.shape ≠ task.kind) (t : Turn) :
    ∃ status kind t', runKind p run id task t = .ok status t' ∧
      t'.tasks = t.tasks.modify id (fun task => { task with kind }) ∧
      task.kind.Wanes kind ∧ (status ≠ .ended → kind.InRange) := by
  unfold runKind
  generalize task.kind = kind at hl hf hk
  cases kind with
  | wait remaining =>
    cases remaining with
    | none => exact absurd rfl hk
    | some left =>
      have wanes {m : UInt32} (h : m ≤ left) :
          (TaskKind.wait (some left)).Wanes (.wait (some m)) := by
        rintro n ⟨⟩
        exact ⟨m, rfl, h⟩
      by_cases hz : left = 0
      · subst hz
        exact ⟨.ended, .wait (some 0), _, rfl, rfl, wanes (UInt32.le_refl 0), fun _ => trivial⟩
      · have hne : (left == 0) = false := by simpa using hz
        have hpos : left.toNat ≠ 0 := fun h => hz (UInt32.toNat.inj h)
        have hle : left - 1 ≤ left :=
          UInt32.sub_le (UInt32.le_iff_toNat_le.2 (Nat.pos_of_ne_zero hpos))
        have hrun : runWait p id task (some left) t = .ok .paused { t with
            tasks := t.tasks.modify id fun task =>
              { task with kind := .wait (some (left - 1)) } } := by
          simp only [runWait, pure_bind, hne, Bool.false_eq_true, if_false]
          rfl
        exact ⟨.paused, .wait (some (left - 1)), _, hrun, rfl, wanes hle, fun _ => trivial⟩
  | changeDirection state =>
    obtain ⟨value, term, ramp⟩ := state
    cases ramp with
    | none => exact absurd rfl hk
    | some ramp =>
      refine ⟨rampStatus ramp.step, .changeDirection ⟨value, term, some ramp.step⟩, _, rfl, rfl,
        nofun, ?_⟩
      rintro hs _ ⟨⟩
      exact lt_term_of_rampStatus hs
  | changeSpeed state =>
    obtain ⟨value, term, ramp⟩ := state
    cases ramp with
    | none => exact absurd rfl hk
    | some ramp =>
      refine ⟨rampStatus ramp.step, .changeSpeed ⟨value, term, some ramp.step⟩, _, rfl, rfl,
        nofun, ?_⟩
      rintro hs _ ⟨⟩
      exact lt_term_of_rampStatus hs
  | accel state =>
    obtain ⟨horizontal, vertical, term, ramp⟩ := state
    cases ramp with
    | none => exact absurd rfl hk
    | some ramp =>
      refine ⟨rampStatus ramp.step, .accel ⟨horizontal, vertical, term, some ramp.step⟩, _, rfl,
        rfl, nofun, ?_⟩
      rintro hs _ ⟨⟩
      exact lt_term_of_rampStatus hs
  | fire => cases hf
  | action => cases hl
  | bullet => cases hl
  | «repeat» => cases hl
  | vanish => cases hl

theorem shape_ne_of_reached {g : Gauge} {k : Nat} {kind : TaskKind} (h : kind.Reached g k) :
    kind.shape ≠ kind ∧ kind.isLeaf = true ∧ kind.isFire = false := by
  cases h <;> exact ⟨nofun, rfl, rfl⟩

variable (p run id task) in
/-- A task that counts frames counts one more, whether it has begun to count or not. -/
theorem runKind_counts (hl : task.kind.isLeaf = true) (hf : task.kind.isFire = false) (t : Turn) :
    ∃ status kind t', runKind p run id task t = .ok status t' ∧
      t'.tasks = t.tasks.modify id (fun task => { task with kind }) ∧
      task.kind.Wanes kind ∧ (status ≠ .ended → kind.InRange) := by
  by_cases hs : task.kind.shape = task.kind
  · obtain ⟨known, random, hreached, hrun⟩ := runKind_of_fresh p run id hl hf hs t
    obtain ⟨hk, hl', hf'⟩ := shape_ne_of_reached hreached
    obtain ⟨status, kind, t', hr, ht, _, hin⟩ :=
      runKind_of_known p run id { task with kind := known } hl' hf' hk
        { t with context := { t.context with random } }
    refine ⟨status, kind, t', hrun.trans hr, ht, ?_, hin⟩
    -- A wait that has not run does not know what is left of it.
    intro n hn
    rw [hn] at hs
    cases hs
  · exact runKind_of_known p run id task hl hf hs t

theorem tallies_counts (hs : t.tasks.Sound) (hc : t.tasks.Counted ∅)
    (ht : t.tasks.get? id = some (task.advance .running)) (hl : task.kind.isLeaf = true)
    (hf : task.kind.isFire = false) :
    let x := runKind p run id task t
    t.tasks.TalliesBut id (answer x) (state x).tasks := by
  intro x
  obtain ⟨status, kind, t', hr, hm, hwane, hin⟩ := runKind_counts p run id task hl hf t
  have modified {S : Set TaskId} (h : id ∉ S → kind.InRange) :
      t.tasks.Tallies S (t.tasks.modify id fun task => { task with kind }) := by
    apply hs.tallies_modify hc (Set.empty_subset _)
    intro task' ht'
    rw [ht, Option.some.injEq] at ht'
    subst ht'
    exact ⟨hwane, fun _ => h⟩
  simp only [x, hr, answer, state, hm]
  exact ⟨modified fun hid => absurd rfl hid,
    fun hne => (modified fun _ => hin fun he => hne (congrArg _ he)).counted⟩

theorem Acts.tallies (h : Acts p id task t r t') (hs : t.tasks.Sound) (hc : t.tasks.Counted S)
    (hk : task.kind.isFire = true) : t.tasks.Tallies S t'.tasks := by
  cases h with
  | steers _ hf =>
    cases hkind : task.kind with
    | fire st => exact absurd hkind (hf st)
    | _ => simp [hkind, TaskKind.isFire] at hk
  | vanishes => exact hs.tallies hc
  | empty => exact hs.tallies hc
  | unheld => exact hs.tallies hc
  | drops => exact hs.tallies hc
  | misfires _ _ _ _ hb => exact Binder.tallies_bindRoots (s := ⟨t.tasks, _⟩) hs hc hb
  | fires _ _ _ _ hb =>
    have hbind := Binder.tallies_bindRoots (s := ⟨t.tasks, _⟩) hs hc hb
    exact hbind.bind (tallies_own _ _)

end Leaves

end Turn
end Barrage

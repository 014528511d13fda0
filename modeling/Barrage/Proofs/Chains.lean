import Barrage.Proofs.Host

namespace Barrage

/-- How long chains in the bodies can be that a task of this kind binds. -/
def TaskKind.reach : TaskKind → Nat
  | .repeat state => state.room + 1
  | _ => 0

theorem TaskKind.reach_shape (kind : TaskKind) : kind.shape.reach = kind.reach := by
  cases kind <;> rfl

theorem TaskKind.reach_of_shape {kind kind' : TaskKind} (h : kind'.shape = kind.shape) :
    kind'.reach = kind.reach := by
  rw [← reach_shape, h, reach_shape]

/-- No chain of tasks in the tree is longer than `n`, also not once other bodies are bound in it. -/
inductive TaskTree.Within : Nat → TaskTree → Prop where
  | node {n : Nat} {node : NodeId} {params : List Float32} {kind : TaskKind}
      {below : List TaskTree} (hr : kind.reach ≤ n) (hc : ∀ c ∈ below, Within n c) :
      Within (n + 1) (.node node params kind below)

theorem TaskTree.Within.mono {m n : Nat} {tree : TaskTree} (h : tree.Within m) (hn : m ≤ n) :
    tree.Within n := by
  induction h generalizing n with
  | @node m _ _ _ _ hr _ ih =>
    obtain ⟨n, rfl⟩ := Nat.exists_eq_add_of_le' hn
    rw [← Nat.add_assoc] at hn ⊢
    have hle : m ≤ n + m := Nat.le_add_left m n
    exact .node (Nat.le_trans hr hle) fun c hc => ih c hc hle

theorem TaskTree.Within.leaf {n : Nat} {node : NodeId} {params : List Float32} {kind : TaskKind}
    (hk : kind.reach = 0) : (TaskTree.node node params kind []).Within (n + 1) :=
  .node (hk ▸ Nat.zero_le n) (by simp)

namespace Binder
open Expansion

variable {p : Pattern} {b : Binder} {child beyond : NodeExpander} {room n : Nat}

/-- Whatever a step gives, the rest yields. -/
theorem yields_after {α β : Type} {x : Expansion α} {f : α → Expansion β} {S : β → Prop}
    (h : ∀ a, Yields False p (f a) S) : Yields False p (x >>= f) S := by
  have hx : Yields False p x fun _ => True := by
    intro r
    split
    · trivial
    · exact nofun
  exact hx.bind fun a _ => h a

/-- The expander gives trees with no chain longer than `n`. -/
def Bounds (p : Pattern) (n : Nat) (child : NodeExpander) : Prop :=
  ∀ node params, Yields False p (child node params) fun tree => ∀ t ∈ tree, t.Within n

theorem Bounds.mono {m : Nat} (h : Bounds p m child) (hn : m ≤ n) : Bounds p n child := by
  intro node params r
  have hr := h node params r
  split at hr
  · exact fun t ht => (hr t ht).mono hn
  · exact nofun

theorem Bounds.children (hc : Bounds p n child) (params : List Float32) (cs : List NodeId) :
    Yields False p (expandChildren child params cs) fun trees => ∀ t ∈ trees, t.Within n := by
  induction cs with
  | nil => exact yields_pure (by simp)
  | cons c cs ih =>
    apply (hc c params).bind
    intro tree ht
    apply ih.bind
    intro trees hts
    apply yields_pure
    intro t hm
    rcases List.mem_append.1 hm with hm | hm
    · exact ht t (Option.mem_toList.1 hm)
    · exact hts t hm

theorem Bounds.action (hc : Bounds p n child) (node : NodeId) (params : List Float32) :
    Yields False p (b.expandAction child node params) (TaskTree.Within (n + 1)) := by
  apply (hc.children params _).bind
  intro trees ht
  exact yields_pure (.node (Nat.zero_le n) ht)

theorem Bounds.body (hc : Bounds p n child) (node : NodeId) (params : List Float32) :
    Yields False p (b.expandBody child node params) (TaskTree.Within n) := by
  unfold expandBody
  cases b.pattern.child? node .action <|> b.pattern.child? node .actionRef with
  | none => exact yields_throw nofun
  | some body =>
    apply (hc body params).bind
    intro tree ht
    cases tree with
    | none => exact yields_throw nofun
    | some tree => exact yields_pure (ht tree rfl)

theorem Bounds.repeat (hc : Bounds p (room + 1) child) (node : NodeId) (params : List Float32) :
    Yields False p (b.expandRepeat room child node params) (TaskTree.Within (room + 2)) := by
  unfold expandRepeat
  apply yields_after
  intro _
  apply (hc.body node params).bind
  intro body hb
  apply yields_pure
  refine .node (Nat.le_refl (room + 1)) ?_
  intro c h
  rw [List.mem_singleton.1 h]
  exact hb

/-- A fire stands over the bullet that it holds, also where no level is left. -/
theorem within_fire (b : Binder) (fire : NodeId) (params : List Float32) :
    Yields False p (b.expandFire fire params) (TaskTree.Within (n + 2)) := by
  unfold expandFire
  apply yields_after
  intro _
  apply yields_pure
  refine .node (Nat.zero_le _) ?_
  intro c h
  rw [List.mem_singleton.1 h]
  exact .leaf rfl

theorem within_fireRef (b : Binder) (room : Nat) (ref : NodeId) (params : List Float32) :
    Yields False p (b.expandFireRef room ref params) (TaskTree.Within (n + 2)) := by
  unfold expandFireRef
  apply yields_after
  intro fire
  apply yields_after
  intro passed
  cases room with
  | zero => exact yields_throw nofun
  | succ room => exact within_fire b fire passed

theorem within_change (b : Binder) {kind : ChangeState → TaskKind}
    (hk : ∀ state, (kind state).reach = 0) (value : Element) (node : NodeId)
    (params : List Float32) :
    Yields False p (b.expandChange kind value node params) (TaskTree.Within (n + 1)) := by
  unfold expandChange
  apply yields_after
  intro _
  apply yields_after
  intro _
  exact yields_pure (.leaf (hk _))

theorem within_accel (b : Binder) (node : NodeId) (params : List Float32) :
    Yields False p (b.expandAccel node params) (TaskTree.Within (n + 1)) := by
  unfold expandAccel
  apply yields_after
  intro _
  exact yields_pure (.leaf rfl)

theorem Bounds.over (hc : Bounds p (room + 1) child) (hb : Bounds p (room + 1) beyond) :
    Bounds p (room + 2) (b.expandOver room child beyond) := by
  intro node params
  have wrap {x : Expansion TaskTree} (h : Yields False p x (TaskTree.Within (room + 2))) :
      Yields False p (some <$> x) fun tree => ∀ t ∈ tree, t.Within (room + 2) :=
    h.map fun t ht t' h => by
      cases h
      exact ht
  have leaf {kind : TaskKind} (hk : kind.reach = 0) :
      Yields False p (pure (some (TaskTree.node node params kind []))) fun tree =>
        ∀ t ∈ tree, t.Within (room + 2) :=
    yields_pure fun t h => by
      cases h
      exact .leaf hk
  unfold expandOver
  cases b.pattern.element node with
  | action => exact wrap (hc.action node params)
  | actionRef =>
    apply yields_after
    intro target
    apply yields_after
    intro passed
    exact wrap (hb.action target passed)
  | fire => exact wrap (within_fire b node params)
  | fireRef => exact wrap (within_fireRef b room node params)
  | «repeat» => exact wrap (hc.repeat node params)
  | wait => exact leaf rfl
  | vanish => exact leaf rfl
  | changeDirection => exact wrap (within_change b (fun _ => rfl) _ node params)
  | changeSpeed => exact wrap (within_change b (fun _ => rfl) _ node params)
  | accel => exact wrap (within_accel b node params)
  | _ => exact yields_pure (by simp)

theorem bounds_refused : Bounds p n expandRefused := fun _ _ => yields_throw nofun

/-- The levels that binding leaves room for bound the chains of what is bound. -/
theorem bounds_node (b : Binder) (room : Nat) : Bounds p (room + 1) (b.expandNode room) := by
  induction room using Nat.twoStepInduction with
  | zero => exact bounds_refused
  | one => exact .over bounds_refused bounds_refused
  | more room ih ih' => exact .over ih' (ih.mono (Nat.le_succ _))

end Binder

namespace Arena

variable {a a' a'' : Arena} {id c : TaskId} {cs : List TaskId} {task : Task} {f : Task → Task}
  {m n : Nat} {X Y : Finset TaskId}

/-- The task was given up, or no chain of tasks from it on is longer than `n`, also not once other
bodies are bound in it. -/
inductive Within (a : Arena) : Nat → TaskId → Prop where
  | dead {n : Nat} {id : TaskId} (hd : a.IsDead id) : Within a n id
  | live {n : Nat} {id : TaskId} {task : Task} (ht : a.get? id = some task)
      (hr : task.kind.reach ≤ n) (hc : ∀ c ∈ task.children, Within a n c) : Within a (n + 1) id

/-- Every chain of tasks is short enough to be run. -/
def Bounded (a : Arena) : Prop := ∀ id, a.contains id = true → a.Within maxTaskChain id

theorem bounded_empty : empty.Bounded := by
  intro id h
  simp [contains] at h

theorem Within.mono (h : a.Within m id) (hn : m ≤ n) : a.Within n id := by
  induction h generalizing n with
  | dead hd => exact .dead hd
  | @live m _ _ ht hr _ ih =>
    obtain ⟨n, rfl⟩ := Nat.exists_eq_add_of_le' hn
    rw [← Nat.add_assoc] at hn ⊢
    have hle : m ≤ n + m := Nat.le_add_left m n
    exact .live ht (Nat.le_trans hr hle) fun c hc => ih c hc hle

/-- A live task is over its children, and over the bodies that it binds. -/
theorem Within.of_live (h : a.Within n id) (ht : a.get? id = some task) (hw : a.NoWrap) :
    ∃ m, n = m + 1 ∧ task.kind.reach ≤ m ∧ ∀ c ∈ task.children, a.Within m c := by
  cases h with
  | dead hd =>
    rw [hd.get? hw] at ht
    cases ht
  | live ht' hr hc =>
    rw [ht, Option.some.injEq] at ht'
    subst ht'
    exact ⟨_, rfl, hr, hc⟩

theorem Holds.within {owner : Option TaskId} {trees : List TaskTree}
    (h : a.Holds owner cs trees X) (ht : ∀ tree ∈ trees, tree.Within n) :
    (∀ c ∈ cs, a.Within n c) ∧ ∀ id ∈ X, a.Within n id := by
  induction h generalizing n with
  | nil => simp
  | cons hget _ _ _ _ ihc ihs =>
    obtain ⟨hcs, hY⟩ := ihs fun t hm => ht t (List.mem_cons_of_mem _ hm)
    cases ht _ List.mem_cons_self with
    | @node n _ _ _ _ hr hbelow =>
      obtain ⟨hchildren, hX⟩ := ihc hbelow
      have hself := Within.live hget hr hchildren
      constructor
      · intro c hc
        rcases List.mem_cons.1 hc with rfl | hc
        · exact hself
        · exact hcs c hc
      · intro id hm
        simp only [Finset.mem_union, Finset.mem_singleton] at hm
        rcases hm with (rfl | hm) | hm
        · exact hself
        · exact (hX id hm).mono (Nat.le_succ n)
        · exact hY id hm

/-- From `a` to `a'` tasks keep what was bound for them or are given up for good, and chains stay
as short as they were. -/
structure Persists (a a' : Arena) : Prop extends a.Evolves a' where
  shape : ∀ id task, a.get? id = some task → a'.IsDead id ∨
    ∃ task', a'.get? id = some task' ∧ task'.kind.shape = task.kind.shape
  within : ∀ n id, a.Within n id → a'.Within n id
  bounded : a.Bounded → a'.Bounded

theorem Sound.persists (hs : a.Sound) : a.Persists a where
  toEvolves := hs.evolves
  shape _ task ht := .inr ⟨task, ht, rfl⟩
  within _ _ := id
  bounded := id

theorem Persists.trans (h₁ : a.Persists a') (h₂ : a'.Persists a'') : a.Persists a'' where
  toEvolves := h₁.toEvolves.trans h₂.toEvolves
  shape id task ht := by
    rcases h₁.shape id task ht with hd | ⟨task', ht', hs⟩
    · exact .inl (hd.grows h₂.grows)
    · apply (h₂.shape id task' ht').imp_right
      rintro ⟨task'', ht'', hs'⟩
      exact ⟨task'', ht'', hs'.trans hs⟩
  within n id h := h₂.within n id (h₁.within n id h)
  bounded h := h₂.bounded (h₁.bounded h)

theorem Persists.bind (h₁ : a.Persists a') (h₂ : a'.Sound → a'.Persists a'') : a.Persists a'' :=
  h₁.trans (h₂ h₁.sound)

/-- What was bound for a task does not change while it is live. -/
theorem Persists.reach {task' : Task} (h : a.Persists a') (ht : a.get? id = some task)
    (ht' : a'.get? id = some task') (hw : a'.NoWrap) : task'.kind.reach = task.kind.reach := by
  rcases h.shape id task ht with hd | ⟨_, hget, hs⟩
  · rw [hd.get? hw] at ht'
    cases ht'
  · rw [ht', Option.some.injEq] at hget
    subst hget
    exact TaskKind.reach_of_shape hs

/-- Chains do not grow where no task has children that it had not before. -/
theorem Within.transport (h : a.Within n id) (hg : a.Grows a')
    (hk : ∀ id task, a.get? id = some task → a'.IsDead id ∨ ∃ task', a'.get? id = some task' ∧
      task'.kind.shape = task.kind.shape ∧ task'.children ⊆ task.children) : a'.Within n id := by
  induction h with
  | dead hd => exact .dead (hd.grows hg)
  | live ht hr _ ih =>
    rcases hk _ _ ht with hd | ⟨task', ht', hs, hc⟩
    · exact .dead hd
    · apply Within.live ht'
      · rw [TaskKind.reach_of_shape hs]
        exact hr
      · exact fun c hm => ih c (hc hm)

theorem Evolves.persists (h : a.Evolves a')
    (hk : ∀ id task, a.get? id = some task → a'.IsDead id ∨ ∃ task', a'.get? id = some task' ∧
      task'.kind.shape = task.kind.shape ∧ task'.children ⊆ task.children)
    (hn : ∀ id, a'.contains id = true → a.contains id = true ∨ (a.Bounded →
      a'.Within maxTaskChain id)) : a.Persists a' where
  toEvolves := h
  shape id task ht := (hk id task ht).imp_right fun ⟨task', ht', hs, _⟩ => ⟨task', ht', hs⟩
  within _ _ hin := hin.transport h.grows hk
  bounded hb id hc := by
    rcases hn id hc with hold | hnew
    · exact (hb id hold).transport h.grows hk
    · exact hnew hb

theorem Sound.persists_modify (hs : a.Sound)
    (hf : ∀ task, a.get? id = some task → (f task).kind.shape = task.kind.shape ∧
      (f task).children ⊆ task.children) : a.Persists (a.modify id f) := by
  apply hs.evolves_modify.persists
  · intro k task ht
    rw [get?_modify]
    split
    · rename_i he
      subst he
      exact .inr ⟨f task, by simp [ht], hf task ht⟩
    · exact .inr ⟨task, ht, rfl, List.Subset.refl _⟩
  · intro k hc
    rw [contains_modify] at hc
    exact .inl hc

theorem Replaces.persists (h : a.Replaces a' ∅ Y)
    (hY : a.Bounded → ∀ id ∈ Y, a'.Within maxTaskChain id) : a.Persists a' := by
  apply h.evolves.persists
  · intro id task ht
    have hkept := h.kept id (contains_of_get? ht) (Finset.notMem_empty id)
    exact .inr ⟨task, hkept.trans ht, rfl, List.Subset.refl _⟩
  · intro id hc
    rcases h.only id hc with hm | ⟨hold, _⟩
    · exact .inr fun hb => hY hb id hm
    · exact .inl hold

theorem Sound.persists_remove (hs : a.Sound) (h : a.contains id = true) :
    a.Persists (a.remove id) := by
  apply (hs.replaces_remove h).evolves.persists
  · intro k task ht
    by_cases hk : k = id
    · subst hk
      exact .inl (isDead_remove h)
    · exact .inr ⟨task, by rw [get?_remove, if_neg hk, ht], rfl, List.Subset.refl _⟩
  · intro k hc
    rw [contains, get?_remove] at hc
    split at hc
    · cases hc
    · exact .inl hc

theorem Sound.persists_releaseFrom (rounds : Nat) (stack : List TaskId) (hs : a.Sound) :
    a.Persists (releaseFrom rounds stack a).2 := by
  induction rounds generalizing stack a with
  | zero => exact hs.persists
  | succ rounds ih =>
    unfold releaseFrom
    split
    · exact hs.persists
    · rename_i hf
      exact (hs.persists_remove (contains_firstLive? hf)).bind fun h => ih _ h

theorem Sound.persists_release (hs : a.Sound) : a.Persists (a.release id).2 :=
  hs.persists_releaseFrom _ _

theorem Sound.persists_releaseAll (hs : a.Sound) (ids : List TaskId) :
    a.Persists (a.releaseAll ids) := by
  induction ids generalizing a with
  | nil => exact hs.persists
  | cons id ids ih => exact hs.persists_release.bind ih

/-- A task that takes in a body keeps its bound if the body is within reach. -/
theorem Sound.persists_adopt (hs : a.Sound) (ht : a.get? id = some task)
    (hc : a.Within task.kind.reach c) : a.Persists (a.modify id (·.adopt c)) := by
  have hself : (a.modify id (·.adopt c)).get? id = some (task.adopt c) := by
    rw [get?_modify, if_pos rfl, ht]
    rfl
  -- The body may have any chains below it, so the induction is on their length.
  have hin (n : Nat) (k : TaskId) (h : a.Within n k) : (a.modify id (·.adopt c)).Within n k := by
    induction n generalizing k with
    | zero =>
      cases h with
      | dead hd => exact .dead (hd.grows grows_modify)
    | succ n ih =>
      cases h with
      | dead hd => exact .dead (hd.grows grows_modify)
      | @live _ _ task' ht' hr hbelow =>
        by_cases hk : k = id
        · subst hk
          rw [ht, Option.some.injEq] at ht'
          subst ht'
          apply Within.live hself hr
          intro d hd
          rcases List.mem_append.1 hd with hd | hd
          · exact ih d (hbelow d hd)
          · rw [List.mem_singleton.1 hd]
            exact ih c (hc.mono hr)
        · have hget : (a.modify id (·.adopt c)).get? k = some task' := by
            rw [get?_modify, if_neg hk, ht']
          exact .live hget hr fun d hd => ih d (hbelow d hd)
  refine ⟨hs.evolves_modify, ?_, hin, ?_⟩
  · intro k task' ht'
    rw [get?_modify]
    split
    · rename_i hk
      subst hk
      exact .inr ⟨task'.adopt c, by simp [ht'], rfl⟩
    · exact .inr ⟨task', ht', rfl⟩
  · intro hb k hlive
    rw [contains_modify] at hlive
    exact hin _ _ (hb k hlive)

end Arena

namespace Binder
open Expansion

variable {b : Binder} {owner : Option TaskId} {params : List Float32} {s s' : BindState}

/-- Roots that are bound have chains that are short enough. -/
theorem persists_bindRoots (owner : Option TaskId) (params : List Float32) (nodes : List NodeId)
    (hs : s.tasks.Sound) {x : EStateM.Result PatternError BindState (List TaskId)}
    (h : b.bindRoots owner params nodes [] s = x) :
    match x with
    | .ok _ s' | .error _ s' => s.tasks.Persists s'.tasks := by
  have hb : BindsRoots owner [] ∅ s (b.bindRoots owner params nodes [] s) _ :=
    binds_roots nodes hs .nil
  have hy := (bounds_node (p := b.pattern) b (maxNestDepth + 1)).children params nodes s.random
  generalize expandChildren (b.expandNode (maxNestDepth + 1)) params nodes s.random = y at hb hy
  rw [h] at hb
  cases hb with
  | ok hr hh => exact hr.persists fun _ => (hh.within hy).2
  | error hr => exact hr.persists fun _ id hm => absurd hm (Finset.notMem_empty id)

/-- A body that is bound has chains no longer than it has room. -/
theorem within_bindBody {room : Nat} {node : NodeId} {id fresh : TaskId} (hs : s.tasks.Sound)
    (h : b.bindBody (b.bindNode room) node id params s = .ok fresh s') :
    ∃ X, s.tasks.Replaces s'.tasks ∅ X ∧ s'.tasks.Within (room + 1) fresh ∧
      ∀ k ∈ X, s'.tasks.Within (room + 1) k := by
  have hb := (b.follows_node room).body (b := b) hs node id params
  have hy := (bounds_node (p := b.pattern) b room).body (b := b) node params s.random
  generalize b.expandBody (b.expandNode room) node params s.random = y at hb hy
  rw [h] at hb
  cases hb with
  | ok hr hh =>
    obtain ⟨hroots, hX⟩ := hh.within (n := room + 1) (by simpa using hy)
    exact ⟨_, hr, hroots fresh (List.mem_singleton_self fresh), hX⟩

end Binder

namespace Turn

variable {p : Pattern} {fuel room left : Nat} {job : Job} {t t' : Turn} {id body fresh : TaskId}
  {task : Task} {calls : List Call} {r : Except PatternError Status} {b : Bullet}

section Steps

theorem persists_start (id : TaskId) (hs : t.tasks.Sound) :
    t.tasks.Persists (t.start id).tasks :=
  hs.persists_modify fun _ _ => ⟨rfl, List.Subset.refl _⟩

theorem persists_close (id : TaskId) (r : Except PatternError Status) (hs : t.tasks.Sound) :
    t.tasks.Persists (t.close id r).tasks := by
  unfold close
  split
  · exact hs.persists_modify fun _ _ => ⟨rfl, List.Subset.refl _⟩
  · exact hs.persists

theorem persists_own {a : Arena} (fire : TaskId) (roots : List TaskId) (hs : a.Sound) :
    a.Persists (own fire roots a) := by
  induction roots generalizing a with
  | nil => exact hs.persists
  | cons root roots ih =>
    have hm : a.Persists (a.modify root fun task => { task with owner := some fire }) :=
      hs.persists_modify fun _ _ => ⟨rfl, List.Subset.refl _⟩
    exact hm.bind ih

theorem Acts.persists (h : Acts p id task t r t') (hs : t.tasks.Sound)
    (ht : t.tasks.get? id = some (task.advance .running)) : t.tasks.Persists t'.tasks := by
  cases h with
  | steers hk =>
    apply hs.persists_modify
    intro task' ht'
    rw [ht, Option.some.injEq] at ht'
    subst ht'
    exact ⟨hk, List.Subset.refl _⟩
  | vanishes => exact hs.persists
  | empty => exact hs.persists
  | unheld => exact hs.persists
  | drops => exact hs.persists
  | misfires _ _ _ _ hb => exact Binder.persists_bindRoots _ _ _ (s := ⟨t.tasks, _⟩) hs hb
  | fires _ _ _ _ hb =>
    have hbind := Binder.persists_bindRoots _ _ _ (s := ⟨t.tasks, _⟩) hs hb
    exact hbind.bind (persists_own _ _)

theorem Counts.persists {st : RepeatState} {times : UInt32} (h : Counts p id task st t times t')
    (hs : t.tasks.Sound) (ht : t.tasks.get? id = some (task.advance .running))
    (hk : task.kind = .repeat st) : t.tasks.Persists t'.tasks := by
  cases h with
  | known => exact hs.persists
  | finds =>
    apply hs.persists_modify
    intro task' ht'
    rw [ht, Option.some.injEq] at ht'
    subst ht'
    refine ⟨?_, List.Subset.refl _⟩
    rw [show (task.advance .running).kind = task.kind from rfl, hk]
    rfl

theorem shape_countBody (task : Task) : task.countBody.kind.shape = task.kind.shape := by
  unfold Task.countBody
  cases task.kind <;> rfl

theorem persists_countBody (hs : t.tasks.Sound)
    (ht : (t.shed body).tasks.get? id = some task) :
    t.tasks.Persists ((t.shed body).countBody id task).tasks := by
  have hrel : t.tasks.Persists (t.shed body).tasks := hs.persists_release
  apply hrel.bind
  intro hs'
  apply hs'.persists_modify
  intro task' ht'
  rw [ht, Option.some.injEq] at ht'
  subst ht'
  exact ⟨shape_countBody task, List.nil_subset _⟩

theorem get?_counted (ht : (t.shed body).tasks.get? id = some task) :
    ((t.shed body).countBody id task).tasks.get? id = some task.countBody := by
  rw [countBody, Arena.get?_modify, if_pos rfl, ht]
  rfl

theorem persists_rebind_error {e : PatternError} (hs : t.tasks.Sound)
    (h : rebind p room id task b t = .error e t') : t.tasks.Persists t'.tasks := by
  unfold rebind bindFor at h
  split at h
  · cases h
  · rename_i hm
    cases h
    have hr := (Binder.bindBody_error (g := False) (b := ⟨p, t.context.rank, b⟩) hs hm
      nofun nofun nofun).1
    exact hr.persists fun _ k hk => absurd hk (Finset.notMem_empty k)

/-- A `repeat` takes in a fresh body, which is within its reach. -/
theorem persists_again {task' : Task} (hs : t.tasks.Sound) (ht : t.tasks.get? id = some task)
    (hk : task.kind.reach = room + 1) (hw : t'.tasks.NoWrap)
    (h : rebind p room id task' b t = .ok fresh t') :
    t.tasks.Persists (t'.adopt id fresh).tasks ∧
      (t'.adopt id fresh).tasks.get? id = some (task.adopt fresh) ∧
      (t'.adopt id fresh).tasks.Within (room + 1) fresh := by
  unfold rebind bindFor at h
  split at h
  · rename_i tasks random hm
    cases h
    obtain ⟨X, hr, hf, hX⟩ := Binder.within_bindBody (b := ⟨p, t.context.rank, b⟩) hs hm
    have hget : tasks.get? id = some task :=
      (hr.kept id (Arena.contains_of_get? ht) (Finset.notMem_empty id)).trans ht
    have hbind : t.tasks.Persists tasks := by
      apply hr.persists
      intro hb k hk'
      obtain ⟨m, hm, hle, _⟩ :=
        (hb id (Arena.contains_of_get? ht)).of_live ht (hr.grows.noWrap hw)
      exact (hX k hk').mono (by omega)
    have hadopt := hr.sound.persists_adopt hget (hk ▸ hf)
    refine ⟨hbind.trans hadopt, ?_, hadopt.within _ _ hf⟩
    rw [adopt, Arena.get?_modify, if_pos rfl, hget]
    rfl
  · cases h

end Steps

theorem noWrap_rebind {x : EStateM.Result PatternError Turn TaskId} (hs : t.tasks.Sound)
    (hb : rebind p room id task b ((t.shed body).countBody id task) = x)
    (hw : (state x).tasks.NoWrap) : ((t.shed body).countBody id task).tasks.NoWrap :=
  (evolves_rebind (evolves_countBody body id task hs).sound hb).grows.noWrap hw

/-- The bodies that are to be bound are within the reach of the `repeat` that binds them. -/
def Job.Sized : Job → Turn → Prop
  | .bodies room id _, t => ∀ task, t.tasks.get? id = some task → task.kind.reach = room + 1
  | _, _ => True

theorem sized_bodies {st : RepeatState} (h : t.tasks.Persists t'.tasks) (hw : t'.tasks.NoWrap)
    (ht : t.tasks.get? id = some task) (hk : task.kind = .repeat st) (left : Nat) :
    (Job.bodies st.room id left).Sized t' := by
  intro task' ht'
  rw [h.reach ht ht' hw, hk]
  rfl

/-- A `repeat` whose body has ended keeps its reach with the next one, which is within it. -/
theorem persists_rebound {t₁ t₂ : Turn} {task' : Task} (hbody : t.tasks.Persists t₁.tasks)
    (hj : (Job.bodies room id (left + 1)).Sized t) (ht : t.tasks.get? id = some task)
    (ht' : (t₁.shed body).tasks.get? id = some task')
    (hb : rebind p room id task' b ((t₁.shed body).countBody id task') = .ok fresh t₂)
    (hw : (t₂.adopt id fresh).tasks.NoWrap) :
    t.tasks.Persists (t₂.adopt id fresh).tasks ∧
      (Job.bodies room id left).Sized (t₂.adopt id fresh) ∧
      ∀ task, (t₂.adopt id fresh).tasks.get? id = some task →
        ∀ c ∈ task.children, (t₂.adopt id fresh).tasks.Within (room + 1) c := by
  have hw₂ := Arena.grows_modify.noWrap hw
  have hcount := hbody.bind fun h => persists_countBody h ht'
  have hget := get?_counted ht'
  have hreach : task'.countBody.kind.reach = room + 1 := by
    rw [hcount.reach ht hget (noWrap_rebind hbody.sound hb hw₂), hj _ ht]
  obtain ⟨hagain, hget', hfresh⟩ := persists_again hcount.sound hget hreach hw₂ hb
  refine ⟨hcount.trans hagain, ?_, ?_⟩
  · intro task ht
    rw [hget', Option.some.injEq] at ht
    rw [← ht]
    exact hreach
  · intro task ht c hc
    rw [hget', Option.some.injEq] at ht
    subst ht
    rw [List.mem_singleton.1 hc]
    exact hfresh

/-- Whatever a run does, tasks keep what was bound for them, and chains stay short. -/
theorem Runs.persists (h : Runs p fuel job t calls r t') (hs : t.tasks.Sound) (hj : job.Sized t)
    (hw : t'.tasks.NoWrap) : t.tasks.Persists t'.tasks := by
  induction h with
  | exhausted => exact hs.persists
  | stale => exact hs.persists
  | finished => exact hs.persists
  | leaf ht _ ha =>
    exact (persists_start _ hs).bind fun h =>
      (ha.persists h (get?_start ht)).bind (persists_close _ _)
  | composite _ _ _ hr ih =>
    have hw' := noWrap_close (hr.evolves (evolves_start _ hs).sound).sound hw
    exact (persists_start _ hs).bind fun h => (ih h trivial hw').bind (persists_close _ _)
  | «repeat» ht _ hk hc hr ih =>
    have hcount := (persists_start _ hs).bind fun h => hc.persists h (get?_start ht) hk
    have hrun := hr.evolves hcount.sound
    have hw' := noWrap_close hrun.sound hw
    have hsized left := sized_bodies hcount (hrun.grows.noWrap hw') ht hk left
    exact hcount.bind fun h => (ih h (hsized _) hw').bind (persists_close _ _)
  | done => exact hs.persists
  | skip _ _ ih => exact ih hs trivial hw
  | halt _ _ _ _ ih => exact ih hs trivial hw
  | cut _ _ _ _ ih => exact ih hs trivial hw
  | next _ hr _ _ hs' ih ih' =>
    have hw₁ := (hs'.evolves (hr.evolves hs).sound).grows.noWrap hw
    exact (ih hs trivial hw₁).bind fun h => ih' h trivial hw
  | lost => exact hs.persists
  | bare => exact hs.persists
  | spent => exact hs.persists_release
  | hold _ _ _ _ ih => exact ih hs trivial hw
  | vacant _ _ hr _ ih =>
    have hw' := (hr.evolves hs).sound.evolves_release.grows.noWrap hw
    exact (ih hs trivial hw').bind fun h => h.persists_release
  | last _ _ hr ht' _ ih =>
    have hw' := noWrap_countBody (hr.evolves hs).sound hw
    exact (ih hs trivial hw').bind fun h => persists_countBody h ht'
  | unbound _ _ hr ht' hb ih =>
    have hrun := (hr.evolves hs).sound
    have hw' := noWrap_countBody hrun (noWrap_rebind hrun hb hw)
    exact (ih hs trivial hw').bind fun h => (persists_countBody h ht').bind fun h =>
      persists_rebind_error h hb
  | again ht _ hr ht' hb hs' ih ih' =>
    have hrun := (hr.evolves hs).sound
    have hbind := (evolves_countBody _ _ _ hrun).bind fun h => evolves_rebind h hb
    have hw' := (hs'.evolves (evolves_adopt _ _ hbind.sound).sound).grows.noWrap hw
    have hw₁ := noWrap_countBody hrun (noWrap_rebind hrun hb (Arena.grows_modify.noWrap hw'))
    obtain ⟨hagain, hsized, _⟩ := persists_rebound (ih hs trivial hw₁) hj ht ht' hb hw'
    exact hagain.bind fun h => ih' h hsized hw

theorem RunsRoots.persists {kept roots : List TaskId} (h : RunsRoots p kept roots t calls t')
    (hs : t.tasks.Sound) (hw : t'.tasks.NoWrap) : t.tasks.Persists t'.tasks := by
  induction h with
  | done => exact hs.persists
  | fault hr =>
    have hw' := (evolves_releaseAll (hr.evolves hs).sound _).grows.noWrap hw
    exact (hr.persists hs trivial hw').bind fun h => h.persists_releaseAll _
  | cut hr => exact hr.persists hs trivial hw
  | stays hr _ _ hrest ih =>
    have hw' := (hrest.evolves (hr.evolves hs).sound).grows.noWrap hw
    exact (hr.persists hs trivial hw').bind fun h => ih h hw
  | last hr =>
    have hw' := (hr.evolves hs).sound.evolves_release.grows.noWrap hw
    exact (hr.persists hs trivial hw').bind fun h => h.persists_release
  | ends hr _ hrest ih =>
    have hrun := (hr.evolves hs).sound
    have hw' := (hrun.evolves_release.bind fun h => hrest.evolves h).grows.noWrap hw
    exact (hr.persists hs trivial hw').bind fun h => h.persists_release.bind fun h => ih h hw

theorem Plays.persists (h : t.Plays calls t') (hs : t.tasks.Sound) (hw : t'.tasks.NoWrap) :
    t.tasks.Persists t'.tasks := by
  cases h with
  | idle => exact hs.persists
  | runs _ hr => exact hr.persists hs hw

end Turn
end Barrage

import Barrage.Proofs.Expansion

namespace Barrage

section Steps

variable {ε σ α β : Type} {x : EStateM ε σ α} {f : α → EStateM ε σ β} {s s' : σ} {a : α} {e : ε}

theorem bind_of_ok (h : x s = .ok a s') : (x >>= f) s = f a s' := by
  simp only [bind, EStateM.bind, h]

theorem bind_of_error (h : x s = .error e s') : (x >>= f) s = .error e s' := by
  simp only [bind, EStateM.bind, h]

/-- Both steps of one that succeeds have succeeded. -/
theorem ok_of_bind {b : β} (h : (x >>= f) s = .ok b s') :
    ∃ a s₁, x s = .ok a s₁ ∧ f a s₁ = .ok b s' := by
  cases hx : x s with
  | error e s₁ =>
    rw [bind_of_error hx] at h
    cases h
  | ok a s₁ =>
    rw [bind_of_ok hx] at h
    exact ⟨a, s₁, rfl, h⟩

theorem map_of_ok {g : α → β} (h : x s = .ok a s') : (g <$> x) s = .ok (g a) s' := by
  simp only [Functor.map, EStateM.map, h]

theorem map_of_error {g : α → β} (h : x s = .error e s') : (g <$> x) s = .error e s' := by
  simp only [Functor.map, EStateM.map, h]

end Steps

/-- The tasks `cs` have not run and are the roots of these trees under one owner; `X` are all their
tasks. -/
inductive Arena.Holds (a : Arena) :
    Option TaskId → List TaskId → List TaskTree → Finset TaskId → Prop where
  | nil {owner : Option TaskId} : Holds a owner [] [] ∅
  | cons {owner : Option TaskId} {c : TaskId} {cs children : List TaskId} {node : NodeId}
      {params : List Float32} {kind : TaskKind} {below trees : List TaskTree}
      {X Y : Finset TaskId}
      (ht : a.get? c = some ⟨node, owner, children, params, kind, .parsed⟩)
      (hc : Holds a (some c) children below X) (hX : c ∉ X) (hs : Holds a owner cs trees Y)
      (hd : Disjoint ({c} ∪ X) Y) :
      Holds a owner (c :: cs) (.node node params kind below :: trees) ({c} ∪ X ∪ Y)

namespace Arena

variable {a a' : Arena} {owner : Option TaskId} {c parent : TaskId} {cs ds : List TaskId}
  {task : Task} {tree : TaskTree} {trees more : List TaskTree} {X Y Z : Finset TaskId}

theorem Holds.spans (h : a.Holds owner cs trees X) : a.Spans cs X := by
  induction h with
  | nil => exact .nil
  | cons ht _ hX _ hd ihc ihs => exact .live ht ihc hX ihs hd

theorem Holds.append (h₁ : a.Holds owner cs trees X) (h₂ : a.Holds owner ds more Y)
    (hd : Disjoint X Y) : a.Holds owner (cs ++ ds) (trees ++ more) (X ∪ Y) := by
  induction h₁ with
  | nil => simpa using h₂
  | cons ht hc hX _ hXZ _ ihs =>
    rw [Finset.disjoint_union_left] at hd
    rw [Finset.union_assoc]
    exact .cons ht hc hX (ihs h₂ hd.2) (Finset.disjoint_union_right.2 ⟨hXZ, hd.1⟩)

theorem Holds.apart (h : a.Holds owner cs trees Z) (hr : a.Replaces a' X Y)
    (hd : Disjoint X Z) : a'.Holds owner cs trees Z := by
  induction h with
  | nil => exact .nil
  | cons ht hc hX hs hXY ihc ihs =>
    simp only [Finset.disjoint_union_right, Finset.disjoint_singleton_right] at hd
    refine .cons ?_ (ihc hd.1.2) hX (ihs hd.2) hXY
    rw [hr.kept _ (contains_of_get? ht) hd.1.1, ht]

/-- A live task whose children are these trees so far. -/
structure Parent (a : Arena) (parent : TaskId) (task : Task) (trees : List TaskTree)
    (X : Finset TaskId) : Prop where
  get? : a.get? parent = some task
  holds : a.Holds (some parent) task.children trees X
  apart : parent ∉ X

theorem Parent.spans (h : a.Parent parent task trees X) : a.Spans [parent] ({parent} ∪ X) :=
  .single h.get? h.holds.spans h.apart

theorem Parent.release (h : a.Parent parent task trees X) (hs : a.Sound) :
    a.Replaces (a.releaseAll [parent]) ({parent} ∪ X) ∅ :=
  h.spans.releaseAll hs

theorem Parent.root {node : NodeId} {params : List Float32} {kind : TaskKind}
    (h : a.Parent parent ⟨node, owner, cs, params, kind, .parsed⟩ trees X) :
    a.Holds owner [parent] [.node node params kind trees] ({parent} ∪ X) := by
  simpa using Holds.cons h.get? h.holds h.apart .nil (Finset.disjoint_empty_right _)

theorem Sound.parent_insert (hs : a.Sound) (node : NodeId) (owner : Option TaskId)
    (params : List Float32) (kind : TaskKind) :
    (a.insert (.ofNode node owner params kind)).2.Parent
      (a.insert (.ofNode node owner params kind)).1 (.ofNode node owner params kind) [] ∅ where
  get? := by rw [hs.get?_insert, if_pos rfl]
  holds := .nil
  apart := Finset.notMem_empty _

theorem Parent.keep (h : a.Parent parent task trees X) (hr : a.Replaces a' ∅ Y) :
    a'.Parent parent task trees X ∧ Disjoint Y ({parent} ∪ X) ∧
      a.Replaces a' ({parent} ∪ X) (Y ∪ ({parent} ∪ X)) := by
  have hlive : ∀ id ∈ {parent} ∪ X, a.contains id = true := fun id hm => h.spans.contains hm
  have hempty := Finset.disjoint_empty_left ({parent} ∪ X)
  have hframe := hr.frame hlive hempty
  rw [Finset.empty_union] at hframe
  refine ⟨⟨?_, h.holds.apart hr (Finset.disjoint_empty_left _), h.apart⟩,
    hr.disjoint hlive hempty, hframe⟩
  rw [hr.kept parent (contains_of_get? h.get?) (Finset.notMem_empty _), h.get?]

/-- The parent takes in a tree that was bound under it. -/
theorem Parent.adopt (h : a.Parent parent task trees X) (hr : a.Replaces a' ∅ Y)
    (hc : a'.Holds (some parent) [c] [tree] Y) :
    (a'.modify parent (·.adopt c)).Parent parent (task.adopt c) (trees ++ [tree]) (X ∪ Y) ∧
      a.Replaces (a'.modify parent (·.adopt c)) ({parent} ∪ X) ({parent} ∪ (X ∪ Y)) := by
  obtain ⟨h', hY, hframe⟩ := h.keep hr
  rw [Finset.union_comm Y, Finset.union_assoc] at hframe
  rw [Finset.disjoint_union_right, Finset.disjoint_singleton_right] at hY
  have hparent : parent ∉ X ∪ Y := by
    rw [Finset.mem_union, not_or]
    exact ⟨h.apart, hY.1⟩
  have hmod : a'.Replaces (a'.modify parent (·.adopt c)) {parent} {parent} :=
    hr.sound.replaces_modify (Finset.mem_singleton_self _)
  refine ⟨⟨by simp [get?_modify, h'.get?], ?_, hparent⟩, hframe.trans ?_⟩
  · exact (h'.holds.append hc hY.2.symm).apart hmod (Finset.disjoint_singleton_left.2 hparent)
  · exact hr.sound.replaces_modify (Finset.mem_union_left _ (Finset.mem_singleton_self _))

end Arena

namespace Binder
open Binding Expansion

variable {b : Binder} {owner : Option TaskId} {params : List Float32} {s : BindState}
  {bind : NodeBinder} {expand : NodeExpander}

/-- Binding one tree inserts it and nothing else, and a binding that fails leaves nothing behind. -/
inductive Binds (owner : Option TaskId) (s : BindState) :
    EStateM.Result PatternError BindState TaskId →
      EStateM.Result PatternError Random TaskTree → Prop where
  | ok {id : TaskId} {tree : TaskTree} {tasks : Arena} {r : Random} {X : Finset TaskId}
      (hr : s.tasks.Replaces tasks ∅ X) (hh : tasks.Holds owner [id] [tree] X) :
      Binds owner s (.ok id ⟨tasks, r⟩) (.ok tree r)
  | error {e : PatternError} {tasks : Arena} {r : Random} (hr : s.tasks.Replaces tasks ∅ ∅) :
      Binds owner s (.error e ⟨tasks, r⟩) (.error e r)

inductive BindsNode (owner : Option TaskId) (s : BindState) :
    EStateM.Result PatternError BindState (Option TaskId) →
      EStateM.Result PatternError Random (Option TaskTree) → Prop where
  | skip {r : Random} : BindsNode owner s (.ok none ⟨s.tasks, r⟩) (.ok none r)
  | ok {id : TaskId} {tree : TaskTree} {tasks : Arena} {r : Random} {X : Finset TaskId}
      (hr : s.tasks.Replaces tasks ∅ X) (hh : tasks.Holds owner [id] [tree] X) :
      BindsNode owner s (.ok (some id) ⟨tasks, r⟩) (.ok (some tree) r)
  | error {e : PatternError} {tasks : Arena} {r : Random} (hr : s.tasks.Replaces tasks ∅ ∅) :
      BindsNode owner s (.error e ⟨tasks, r⟩) (.error e r)

/-- The state of a parent after some of its children were bound, or one of them could not be. -/
inductive BindsChildren (parent : TaskId) (task : Task) (trees : List TaskTree)
    (X : Finset TaskId) (s : BindState) :
    EStateM.Result PatternError BindState Unit →
      EStateM.Result PatternError Random (List TaskTree) → Prop where
  | ok {children : List TaskId} {more : List TaskTree} {tasks : Arena} {r : Random}
      {Y : Finset TaskId}
      (hr : s.tasks.Replaces tasks ({parent} ∪ X) ({parent} ∪ Y))
      (hp : tasks.Parent parent { task with children } (trees ++ more) Y) :
      BindsChildren parent task trees X s (.ok () ⟨tasks, r⟩) (.ok more r)
  | error {e : PatternError} {task' : Task} {more : List TaskTree} {tasks : Arena} {r : Random}
      {Y : Finset TaskId}
      (hr : s.tasks.Replaces tasks ({parent} ∪ X) ({parent} ∪ Y))
      (hp : tasks.Parent parent task' more Y) :
      BindsChildren parent task trees X s (.error e ⟨tasks, r⟩) (.error e r)

/-- A binder puts into the arena just what an expander says. -/
def Follows (bind : NodeBinder) (expand : NodeExpander) : Prop :=
  ∀ node owner params (s : BindState), s.tasks.Sound →
    BindsNode owner s (bind node owner params s) (expand node params s.random)

theorem Binds.map_some {m : Binding TaskId} {x : Expansion TaskTree}
    (h : Binds owner s (m s) (x s.random)) :
    BindsNode owner s ((some <$> m) s) ((some <$> x) s.random) := by
  generalize hm : m s = rm at h
  generalize hx : x s.random = rx at h
  cases h with
  | ok hr hh =>
    rw [map_of_ok hm, map_of_ok hx]
    exact .ok hr hh
  | error hr =>
    rw [map_of_error hm, map_of_error hx]
    exact .error hr

theorem follows_refused : Follows refuse expandRefused :=
  fun _ _ _ _ hs => .error (.refl hs ∅)

theorem binds_insert (hs : s.tasks.Sound) (node : NodeId) (kind : TaskKind) :
    Binds owner s (insert node owner params kind s) (.ok (.node node params kind []) s.random) := by
  have h := (hs.parent_insert node owner params kind).root
  rw [Finset.union_empty] at h
  exact .ok hs.replaces_insert h

def bindInto (bind : NodeBinder) (parent : TaskId) (params : List Float32) (c : NodeId) :
    Binding Unit := do
  match ← bind c (some parent) params with
  | some task => adopt parent task
  | none => pure ()

theorem forM_cons (c : NodeId) (cs : List NodeId) (f : NodeId → Binding Unit) :
    (c :: cs).forM f = f c >>= fun _ => cs.forM f := rfl

theorem BindsChildren.append {parent : TaskId} {task : Task} {children : List TaskId}
    {trees more : List TaskTree} {X Y : Finset TaskId} {tasks : Arena} {r : Random}
    {m : EStateM.Result PatternError BindState Unit} {x : Expansion (List TaskTree)}
    (hr : s.tasks.Replaces tasks ({parent} ∪ X) ({parent} ∪ Y))
    (h : BindsChildren parent { task with children } (trees ++ more) Y ⟨tasks, r⟩ m (x r)) :
    BindsChildren parent task trees X s m ((do let rest ← x; pure (more ++ rest)) r) := by
  generalize hx : x r = rx at h
  cases h with
  | ok hr' hp =>
    rw [bind_of_ok hx]
    rw [List.append_assoc] at hp
    exact .ok (hr.trans hr') hp
  | error hr' hp =>
    rw [bind_of_error hx]
    exact .error (hr.trans hr') hp

theorem Follows.children (hf : Follows bind expand) {parent : TaskId}
    (params : List Float32) (nodes : List NodeId)
    {s : BindState} {task : Task} {trees : List TaskTree} {X : Finset TaskId}
    (hs : s.tasks.Sound) (hp : s.tasks.Parent parent task trees X) :
    BindsChildren parent task trees X s (nodes.forM (bindInto bind parent params) s)
      (expandChildren expand params nodes s.random) := by
  induction nodes generalizing s task trees X with
  | nil =>
    have hp' : s.tasks.Parent parent { task with children := task.children } (trees ++ []) X := by
      simpa using hp
    exact .ok (.refl hs _) hp'
  | cons c cs ih =>
    rw [forM_cons, expandChildren]
    have h := hf c (some parent) params s hs
    generalize hm : bind c (some parent) params s = rm at h
    generalize hx : expand c params s.random = rx at h
    cases h with
    | @skip r =>
      have hstep : bindInto bind parent params c s = .ok () ⟨s.tasks, r⟩ := by
        rw [bindInto, bind_of_ok hm]
        rfl
      rw [bind_of_ok hstep, bind_of_ok hx]
      have hrest : BindsChildren parent { task with children := task.children } (trees ++ [])
          X ⟨s.tasks, r⟩ (cs.forM (bindInto bind parent params) ⟨s.tasks, r⟩)
          (expandChildren expand params cs r) := by
        rw [List.append_nil]
        exact ih (s := ⟨s.tasks, r⟩) hs hp
      exact BindsChildren.append (.refl hs _) hrest
    | @ok id tree tasks r Y hr hh =>
      have hstep : bindInto bind parent params c s =
          .ok () ⟨tasks.modify parent (·.adopt id), r⟩ := by
        rw [bindInto, bind_of_ok hm]
        rfl
      rw [bind_of_ok hstep, bind_of_ok hx]
      obtain ⟨hp', hr'⟩ := hp.adopt hr hh
      exact BindsChildren.append hr' (ih (s := ⟨_, r⟩) hr'.sound hp')
    | @error e tasks r hr =>
      have hstep : bindInto bind parent params c s = .error e ⟨tasks, r⟩ := by
        rw [bindInto, bind_of_error hm]
      rw [bind_of_error hstep, bind_of_error hx]
      obtain ⟨hp', _, hr'⟩ := hp.keep hr
      rw [Finset.empty_union] at hr'
      exact .error hr' hp'

theorem BindsChildren.close {node : NodeId} {kind : TaskKind} {id : TaskId} {tasks : Arena}
    (step : TaskId → Binding Unit) {x : Expansion (List TaskTree)}
    (hm : insert node owner params kind s = .ok id ⟨tasks, s.random⟩)
    (hr : s.tasks.Replaces tasks ∅ {id})
    (h : BindsChildren id (.ofNode node owner params kind) [] ∅ ⟨tasks, s.random⟩
      (step id ⟨tasks, s.random⟩) (x s.random)) :
    Binds owner s
      ((do let id ← insert node owner params kind; orRelease [id] (step id); pure id) s)
      ((do let trees ← x; pure (TaskTree.node node params kind trees)) s.random) := by
  generalize hst : step id ⟨tasks, s.random⟩ = rm at h
  generalize hx : x s.random = rx at h
  rw [bind_of_ok hm]
  cases h with
  | @ok children trees tasks' r Y hr' hp =>
    have hstep : orRelease [id] (step id) ⟨tasks, s.random⟩ = .ok () ⟨tasks', r⟩ := by
      simp only [orRelease, hst]
    rw [bind_of_ok hstep, bind_of_ok hx]
    rw [Finset.union_empty] at hr'
    exact .ok (hr.trans hr') hp.root
  | @error e task' trees tasks' r Y hr' hp =>
    have hstep : orRelease [id] (step id) ⟨tasks, s.random⟩ =
        .error e ⟨tasks'.releaseAll [id], r⟩ := by
      simp only [orRelease, hst]
    rw [bind_of_error hstep, bind_of_error hx]
    rw [Finset.union_empty] at hr'
    exact .error ((hr.trans hr').trans (hp.release hr'.sound))

theorem insert_ok (hs : s.tasks.Sound) (node : NodeId) (owner : Option TaskId)
    (params : List Float32) (kind : TaskKind) :
    ∃ id tasks, insert node owner params kind s = .ok id ⟨tasks, s.random⟩ ∧
      s.tasks.Replaces tasks ∅ {id} ∧
      tasks.Parent id (.ofNode node owner params kind) [] ∅ :=
  ⟨_, _, rfl, hs.replaces_insert, hs.parent_insert node owner params kind⟩

theorem Follows.action (hf : Follows bind expand) (hs : s.tasks.Sound) (node : NodeId) :
    Binds owner s (b.bindAction bind node owner params s)
      (b.expandAction expand node params s.random) := by
  obtain ⟨id, tasks, hm, hr, hp⟩ := insert_ok hs node owner params .action
  have h := hf.children params (b.pattern.children node) (s := ⟨tasks, s.random⟩) hr.sound hp
  exact h.close (fun id => (b.pattern.children node).forM (bindInto bind id params)) hm hr

theorem Follows.body (hf : Follows bind expand) (hs : s.tasks.Sound) (node : NodeId)
    (id : TaskId) (params : List Float32) :
    Binds (some id) s (b.bindBody bind node id params s)
      (b.expandBody expand node params s.random) := by
  unfold bindBody expandBody
  cases b.pattern.child? node .action <|> b.pattern.child? node .actionRef with
  | none => exact .error (.refl hs ∅)
  | some body =>
    have h := hf body (some id) params s hs
    generalize hm : bind body (some id) params s = rm at h
    generalize hx : expand body params s.random = rx at h
    cases h with
    | skip =>
      simp only [bind_of_ok hm, bind_of_ok hx]
      exact .error (.refl hs ∅)
    | ok hr hh =>
      simp only [bind_of_ok hm, bind_of_ok hx]
      exact .ok hr hh
    | error hr =>
      simp only [bind_of_error hm, bind_of_error hx]
      exact .error hr

theorem Binds.children {parent : TaskId} {task : Task} {trees : List TaskTree}
    {X : Finset TaskId} {m : Binding TaskId} {x : Expansion TaskTree}
    (hp : s.tasks.Parent parent task trees X) (h : Binds (some parent) s (m s) (x s.random)) :
    BindsChildren parent task trees X s ((do let c ← m; adopt parent c) s)
      ((do let tree ← x; pure [tree]) s.random) := by
  generalize hm : m s = rm at h
  generalize hx : x s.random = rx at h
  cases h with
  | ok hr hh =>
    rw [bind_of_ok hm, bind_of_ok hx]
    obtain ⟨hp', hr'⟩ := hp.adopt hr hh
    exact .ok hr' hp'
  | error hr =>
    rw [bind_of_error hm, bind_of_error hx]
    obtain ⟨hp', _, hr'⟩ := hp.keep hr
    rw [Finset.empty_union] at hr'
    exact .error hr' hp'

/-- A step that only looks something up goes the same way on both sides. -/
theorem Binds.require {α : Type} {found : Except PatternError α} {m : α → Binding TaskId}
    {x : α → Expansion TaskTree} (hs : s.tasks.Sound)
    (h : ∀ a, found = .ok a → Binds owner s (m a s) (x a s.random)) :
    Binds owner s ((Binding.require found >>= m) s)
      ((Expansion.require found >>= x) s.random) := by
  cases found with
  | ok a => exact h a rfl
  | error e => exact .error (.refl hs ∅)

theorem Binds.passed {ref : NodeId} {m : List Float32 → Binding TaskId}
    {x : List Float32 → Expansion TaskTree}
    (h : ∀ values r, Binds owner ⟨s.tasks, r⟩ (m values ⟨s.tasks, r⟩) (x values r)) :
    Binds owner s ((b.passedParams ref params >>= m) s)
      ((b.passed ref params >>= x) s.random) := by
  have hb : b.passedParams ref params s = .ok _ ⟨s.tasks, _⟩ := rfl
  have hx : b.passed ref params s.random = .ok _ _ := rfl
  rw [bind_of_ok hb, bind_of_ok hx]
  have hk := h (b.pattern.evalNodes ⟨params, b.rank, b.bullet.degrees, b.bullet.speed⟩
    (b.pattern.childrenNamed ref .param) s.random).1 (b.pattern.evalNodes
    ⟨params, b.rank, b.bullet.degrees, b.bullet.speed⟩
    (b.pattern.childrenNamed ref .param) s.random).2
  generalize hm : m _ _ = rm at hk ⊢
  generalize hx : x _ _ = rx at hk ⊢
  cases hk with
  | ok hr hh => exact .ok hr hh
  | error hr => exact .error hr

theorem Follows.repeat (hf : Follows bind expand) (hs : s.tasks.Sound) (room : Nat)
    (node : NodeId) :
    Binds owner s (b.bindRepeat room bind node owner params s)
      (b.expandRepeat room expand node params s.random) := by
  apply Binds.require hs
  intro _ _
  obtain ⟨id, tasks, hm, hr, hp⟩ := insert_ok hs node owner params (.repeat ⟨none, 0, room⟩)
  have hbody := hf.body (b := b) (s := ⟨tasks, s.random⟩) hr.sound node id params
  have h := Binds.children hp hbody
  have h' := h.close (fun id => do let c ← b.bindBody bind node id params; adopt id c) hm hr
  rwa [bind_assoc] at h'

theorem binds_fire (hs : s.tasks.Sound) (fire : NodeId) :
    Binds owner s (b.bindFire fire owner params s) (b.expandFire fire params s.random) := by
  have held (bullet : NodeId) (bulletParams : List Float32) (r : Random) :
      Binds owner ⟨s.tasks, r⟩
        ((do
          let id ← insert fire owner params
            (.fire ⟨bullet, b.locate fire bullet .direction, b.locate fire bullet .speed⟩)
          let held ← insert bullet (some id) bulletParams .bullet
          adopt id held
          pure id) ⟨s.tasks, r⟩)
        (.ok (.node fire params
          (.fire ⟨bullet, b.locate fire bullet .direction, b.locate fire bullet .speed⟩)
          [.node bullet bulletParams .bullet []]) r) := by
    obtain ⟨id, tasks, hm, hr, hp⟩ := insert_ok (s := ⟨s.tasks, r⟩) hs fire owner params
      (.fire ⟨bullet, b.locate fire bullet .direction, b.locate fire bullet .speed⟩)
    obtain ⟨c, tasks', hm', hr', hp'⟩ :=
      insert_ok (s := ⟨tasks, r⟩) hr.sound bullet (some id) bulletParams .bullet
    have hc := hp'.root
    rw [Finset.union_empty] at hc
    obtain ⟨hp'', hr''⟩ := hp.adopt hr' hc
    rw [bind_of_ok hm, bind_of_ok hm']
    rw [Finset.union_empty] at hr''
    exact .ok (hr.trans hr'') hp''.root
  unfold bindFire expandFire fireBullet expandBullet
  cases b.pattern.child? fire .bullet with
  | some bullet => exact held bullet params s.random
  | none =>
    cases b.pattern.child? fire .bulletRef with
    | none => exact .error (.refl hs ∅)
    | some ref =>
      simp only [bind_assoc]
      apply Binds.require hs
      intro bullet _
      apply Binds.passed
      intro values r
      exact held bullet values r

theorem binds_fireRef (hs : s.tasks.Sound) (room : Nat) (ref : NodeId) :
    Binds owner s (b.bindFireRef room ref owner params s)
      (b.expandFireRef room ref params s.random) := by
  apply Binds.require hs
  intro fire _
  apply Binds.passed
  intro values r
  cases room with
  | zero => exact .error (.refl hs ∅)
  | succ room => exact binds_fire (s := ⟨s.tasks, r⟩) hs fire

theorem binds_change (hs : s.tasks.Sound) (kind : ChangeState → TaskKind) (value : Element)
    (node : NodeId) :
    Binds owner s (b.bindChange kind value node owner params s)
      (b.expandChange kind value node params s.random) := by
  apply Binds.require hs
  intro _ _
  apply Binds.require hs
  intro _ _
  exact binds_insert hs node _

theorem binds_accel (hs : s.tasks.Sound) (node : NodeId) :
    Binds owner s (b.bindAccel node owner params s) (b.expandAccel node params s.random) := by
  apply Binds.require hs
  intro _ _
  exact binds_insert hs node _

theorem follows_over {child beyond : NodeBinder} {child' beyond' : NodeExpander}
    (hc : Follows child child') (hb : Follows beyond beyond') (room : Nat) :
    Follows (b.bindOver room child beyond) (b.expandOver room child' beyond') := by
  intro node owner params s hs
  unfold bindOver expandOver
  cases b.pattern.element node with
  | action => exact (hc.action hs node).map_some
  | actionRef =>
    have h : Binds owner s
        ((do
          let target ← Binding.require (b.pattern.resolve node)
          let passed ← b.passedParams node params
          b.bindAction beyond target owner passed) s)
        ((do
          let target ← Expansion.require (b.pattern.resolve node)
          let passed ← b.passed node params
          b.expandAction beyond' target passed) s.random) :=
      .require hs fun target _ => .passed fun _ r => hb.action (s := ⟨s.tasks, r⟩) hs target
    have h' := h.map_some
    simpa only [map_bind] using h'
  | fire => exact (binds_fire hs node).map_some
  | fireRef => exact (binds_fireRef hs room node).map_some
  | «repeat» => exact (hc.repeat hs room node).map_some
  | wait => exact (binds_insert hs node _).map_some
  | vanish => exact (binds_insert hs node _).map_some
  | changeDirection => exact (binds_change hs _ _ node).map_some
  | changeSpeed => exact (binds_change hs _ _ node).map_some
  | accel => exact (binds_accel hs node).map_some
  | _ => exact .skip

/-- Binding a node inserts its expansion. -/
theorem follows_node (b : Binder) (room : Nat) : Follows (b.bindNode room) (b.expandNode room) := by
  induction room using Nat.twoStepInduction with
  | zero => exact follows_refused
  | one => exact follows_over follows_refused follows_refused 0
  | more room ih ih' => exact follows_over ih' ih (room + 1)

/-- Several nodes are bound all together or not at all, and so are those bound before them. -/
inductive BindsRoots (owner : Option TaskId) (trees : List TaskTree) (X : Finset TaskId)
    (s : BindState) :
    EStateM.Result PatternError BindState (List TaskId) →
      EStateM.Result PatternError Random (List TaskTree) → Prop where
  | ok {roots : List TaskId} {more : List TaskTree} {tasks : Arena} {r : Random}
      {Y : Finset TaskId} (hr : s.tasks.Replaces tasks X Y)
      (hh : tasks.Holds owner roots (trees ++ more) Y) :
      BindsRoots owner trees X s (.ok roots ⟨tasks, r⟩) (.ok more r)
  | error {e : PatternError} {tasks : Arena} {r : Random} (hr : s.tasks.Replaces tasks X ∅) :
      BindsRoots owner trees X s (.error e ⟨tasks, r⟩) (.error e r)

theorem BindsRoots.append {trees more : List TaskTree} {X Y : Finset TaskId} {tasks : Arena}
    {r : Random} {m : EStateM.Result PatternError BindState (List TaskId)}
    {x : Expansion (List TaskTree)} (hr : s.tasks.Replaces tasks X Y)
    (h : BindsRoots owner (trees ++ more) Y ⟨tasks, r⟩ m (x r)) :
    BindsRoots owner trees X s m ((do let rest ← x; pure (more ++ rest)) r) := by
  generalize hx : x r = rx at h
  cases h with
  | ok hr' hh =>
    rw [bind_of_ok hx]
    rw [List.append_assoc] at hh
    exact .ok (hr.trans hr') hh
  | error hr' =>
    rw [bind_of_error hx]
    exact .error (hr.trans hr')

theorem binds_roots (nodes : List NodeId) {roots : List TaskId} {trees : List TaskTree}
    {X : Finset TaskId} (hs : s.tasks.Sound) (hh : s.tasks.Holds owner roots trees X) :
    BindsRoots owner trees X s (b.bindRoots owner params nodes roots s)
      (expandChildren (b.expandNode (maxNestDepth + 1)) params nodes s.random) := by
  induction nodes generalizing s roots trees X with
  | nil =>
    have hh' : s.tasks.Holds owner roots (trees ++ []) X := by rwa [List.append_nil]
    exact .ok (.refl hs X) hh'
  | cons c cs ih =>
    rw [bindRoots, expandChildren]
    have h := b.follows_node (maxNestDepth + 1) c owner params s hs
    generalize hm : b.bindNode (maxNestDepth + 1) c owner params s = rm at h
    generalize hx : b.expandNode (maxNestDepth + 1) c params s.random = rx at h
    have hlive : ∀ id ∈ X, s.tasks.contains id = true := fun id => hh.spans.contains
    cases h with
    | @skip r =>
      have hstep : orRelease roots (b.bindNode (maxNestDepth + 1) c owner params) s =
          .ok none ⟨s.tasks, r⟩ := by simp only [orRelease, hm]
      rw [bind_of_ok hstep, bind_of_ok hx]
      refine BindsRoots.append (.refl hs X) (ih (s := ⟨s.tasks, r⟩) hs ?_)
      rwa [Option.toList_none, List.append_nil]
    | @ok id tree tasks r Y hr hc =>
      have hstep : orRelease roots (b.bindNode (maxNestDepth + 1) c owner params) s =
          .ok (some id) ⟨tasks, r⟩ := by simp only [orRelease, hm]
      rw [bind_of_ok hstep, bind_of_ok hx]
      have hframe := hr.frame hlive (Finset.disjoint_empty_left X)
      rw [Finset.empty_union, Finset.union_comm] at hframe
      have hd := hr.disjoint hlive (Finset.disjoint_empty_left X)
      have hh' := (hh.apart hr (Finset.disjoint_empty_left X)).append hc hd.symm
      exact BindsRoots.append hframe (ih (s := ⟨tasks, r⟩) hr.sound hh')
    | @error e tasks r hr =>
      have hstep : orRelease roots (b.bindNode (maxNestDepth + 1) c owner params) s =
          .error e ⟨tasks.releaseAll roots, r⟩ := by simp only [orRelease, hm]
      rw [bind_of_error hstep, bind_of_error hx]
      have hframe := hr.frame hlive (Finset.disjoint_empty_left X)
      rw [Finset.empty_union] at hframe
      have hh' := hh.apart hr (Finset.disjoint_empty_left X)
      exact .error (hframe.trans (hh'.spans.releaseAll hr.sound))

end Binder
end Barrage

import Barrage.Proofs.Host
import Mathlib.Data.Set.Card

namespace Barrage

namespace Arena

/-- The task that is reached from another one along children, given by their positions. -/
def follow (a : Arena) : TaskId → List Nat → Option TaskId
  | id, [] => some id
  | id, i :: path => (a.child? id i).bind fun c => a.follow c path

/-- The live tasks that are reached from some roots. -/
def below (a : Arena) (roots : List TaskId) : Set TaskId :=
  {id | a.contains id = true ∧ ∃ root ∈ roots, ∃ path, a.follow root path = some id}

variable {g : Prop} {Q : Pattern → Prop} {a : Arena} {id c d : TaskId} {cs : List TaskId}
  {task : Task} {X : Finset TaskId} {path other : List Nat} {i j : Nat}

theorem child?_eq_some (h : a.child? id i = some c) :
    ∃ task, a.get? id = some task ∧ task.children[i]? = some c :=
  Option.bind_eq_some_iff.1 h

theorem follow_cons (ht : a.get? c = some task) :
    a.follow c (i :: path) = task.children[i]?.bind fun c => a.follow c path := by
  rw [follow, child?, ht]
  rfl

theorem contains_of_follow (h : a.follow c path = some id) (hl : a.contains id = true) :
    a.contains c = true := by
  cases path with
  | nil =>
    cases h
    exact hl
  | cons i path =>
    obtain ⟨d, hd, _⟩ := Option.bind_eq_some_iff.1 h
    obtain ⟨task, ht, _⟩ := child?_eq_some hd
    exact contains_of_get? ht

theorem Spans.mem_of_follow (h : a.Spans cs X) (hc : c ∈ cs) (hf : a.follow c path = some id)
    (hl : a.contains id = true) : id ∈ X := by
  have key (path : List Nat) (c : TaskId) (hc : c ∈ X) (hf : a.follow c path = some id) :
      id ∈ X := by
    induction path generalizing c with
    | nil =>
      cases hf
      exact hc
    | cons i path ih =>
      obtain ⟨d, hd, hf⟩ := Option.bind_eq_some_iff.1 hf
      obtain ⟨task, ht, hi⟩ := child?_eq_some hd
      exact ih d (h.closed hc ht (List.mem_of_getElem? hi) (contains_of_follow hf hl)) hf
  exact key path c (h.mem_of_live hc (contains_of_follow hf hl)) hf

theorem Spans.exists_path (h : a.Spans cs X) (hm : id ∈ X) :
    ∃ (i : Nat) (c : TaskId) (path : List Nat), cs[i]? = some c ∧ a.follow c path = some id := by
  induction h with
  | nil => cases hm
  | dead _ _ _ ih =>
    obtain ⟨i, c, path, hi, hf⟩ := ih hm
    exact ⟨i + 1, c, path, hi, hf⟩
  | @live c cs task X Y ht _ _ _ _ ihc ihs =>
    simp only [Finset.mem_union, Finset.mem_singleton] at hm
    rcases hm with (rfl | hm) | hm
    · exact ⟨0, id, [], rfl, rfl⟩
    · obtain ⟨i, d, path, hi, hf⟩ := ihc hm
      exact ⟨0, c, i :: path, rfl, by rw [follow_cons ht, hi]; exact hf⟩
    · obtain ⟨i, d, path, hi, hf⟩ := ihs hm
      exact ⟨i + 1, d, path, hi, hf⟩

/-- Two ways down from a task are the same if they are below its children, and lead elsewhere. -/
theorem follow_inj (ht : a.get? c = some task)
    (hout : ∀ (k : Nat) e p, task.children[k]? = some e → a.follow e p = some id → id ≠ c)
    (hsame : ∀ (k l : Nat) e e' p q, task.children[k]? = some e → a.follow e p = some id →
      task.children[l]? = some e' → a.follow e' q = some id → k = l ∧ p = q)
    (hf : a.follow c path = some id) (hg : a.follow c other = some id) : path = other := by
  have deeper {k : Nat} {p : List Nat} (hp : a.follow c (k :: p) = some id) :
      ∃ e, task.children[k]? = some e ∧ a.follow e p = some id := by
    rw [follow_cons ht] at hp
    exact Option.bind_eq_some_iff.1 hp
  have elsewhere {k : Nat} {p : List Nat} (hp : a.follow c (k :: p) = some id)
      (hn : a.follow c [] = some id) : False := by
    obtain ⟨e, he, hp⟩ := deeper hp
    exact hout k e p he hp (Option.some.inj hn).symm
  cases path with
  | nil =>
    cases other with
    | nil => rfl
    | cons l q => exact (elsewhere hg hf).elim
  | cons k p =>
    cases other with
    | nil => exact (elsewhere hf hg).elim
    | cons l q =>
      obtain ⟨e, he, hf⟩ := deeper hf
      obtain ⟨e', he', hg⟩ := deeper hg
      obtain ⟨rfl, rfl⟩ := hsame k l e e' p q he hf he' hg
      rfl

/-- Two ways to one task of a forest are the same. -/
theorem Spans.path_unique (h : a.Spans cs X) (hl : a.contains id = true) (hi : cs[i]? = some c)
    (hf : a.follow c path = some id) (hj : cs[j]? = some d) (hg : a.follow d other = some id) :
    i = j ∧ path = other := by
  induction h generalizing i j c d path other with
  | nil => simp at hi
  | @dead c₀ cs X hn _ hs ih =>
    have later {k : Nat} {e : TaskId} {p : List Nat} (hk : (c₀ :: cs)[k]? = some e)
        (hp : a.follow e p = some id) : ∃ n, k = n + 1 ∧ cs[n]? = some e := by
      cases k with
      | zero =>
        cases hk
        have hlive := contains_of_follow hp hl
        simp [Arena.contains, hn] at hlive
      | succ n => exact ⟨n, rfl, hk⟩
    obtain ⟨i, rfl, hi⟩ := later hi hf
    obtain ⟨j, rfl, hj⟩ := later hj hg
    obtain ⟨rfl, rfl⟩ := ih hi hf hj hg
    exact ⟨rfl, rfl⟩
  | @live c₀ cs task X Y ht hc hX hs hd ihc ihs =>
    have first {p : List Nat} (hp : a.follow c₀ p = some id) : id ∈ {c₀} ∪ X :=
      (Spans.single ht hc hX).mem_of_follow (List.mem_singleton_self c₀) hp hl
    have later {k : Nat} {e : TaskId} {p : List Nat} (hk : cs[k]? = some e)
        (hp : a.follow e p = some id) : id ∈ Y :=
      hs.mem_of_follow (List.mem_of_getElem? hk) hp hl
    cases i with
    | zero =>
      cases hi
      cases j with
      | zero =>
        cases hj
        refine ⟨rfl, follow_inj ht ?_ ?_ hf hg⟩
        · intro k e p he hp heq
          exact hX (heq ▸ hc.mem_of_follow (List.mem_of_getElem? he) hp hl)
        · exact fun k l e e' p q he hp he' hq => ihc he hp he' hq
      | succ j => exact absurd (later hj hg) (Finset.disjoint_left.1 hd (first hf))
    | succ i =>
      cases j with
      | zero =>
        cases hj
        exact absurd (later hi hf) (Finset.disjoint_left.1 hd (first hg))
      | succ j =>
        obtain ⟨rfl, rfl⟩ := ihs hi hf hj hg
        exact ⟨rfl, rfl⟩

theorem Spans.below_eq (h : a.Spans cs X) : a.below cs = ↑X := by
  ext id
  constructor
  · rintro ⟨hl, root, hr, path, hf⟩
    exact h.mem_of_follow hr hf hl
  · intro hm
    obtain ⟨i, root, path, hi, hf⟩ := h.exists_path hm
    exact ⟨h.contains hm, root, List.mem_of_getElem? hi, path, hf⟩

end Arena

/-- Where a task stands: under which of the bullets, under which of its roots, and on which path. -/
structure Place where
  bullet : Nat
  root : Nat
  path : List Nat
deriving DecidableEq, Repr

def Place.task? (w : Place) (a : Arena) (bs : List Bullet) : Option TaskId :=
  bs[w.bullet]?.bind fun b => b.tasks[w.root]?.bind fun root => a.follow root w.path

namespace Arena

variable {g : Prop} {Q : Pattern → Prop} {a : Arena} {id : TaskId} {X : Finset TaskId}
  {bs : List Bullet} {b : Bullet} {w v : Place} {i : Nat}

theorem task?_eq_some : w.task? a bs = some id ↔
    ∃ b root, bs[w.bullet]? = some b ∧ b.tasks[w.root]? = some root ∧
      a.follow root w.path = some id := by
  rw [Place.task?, Option.bind_eq_some_iff]
  constructor
  · rintro ⟨b, hb, h⟩
    obtain ⟨root, hr, hf⟩ := Option.bind_eq_some_iff.1 h
    exact ⟨b, root, hb, hr, hf⟩
  · rintro ⟨b, root, hb, hr, hf⟩
    exact ⟨b, hb, Option.bind_eq_some_iff.2 ⟨root, hr, hf⟩⟩

theorem Owned.mem_of_place (h : a.Owned g Q bs X) (hw : w.task? a bs = some id)
    (hl : a.contains id = true) : id ∈ X := by
  obtain ⟨b, root, hb, hr, hf⟩ := task?_eq_some.1 hw
  refine h.spans.mem_of_follow ?_ hf hl
  exact List.mem_flatMap.2 ⟨b, List.mem_of_getElem? hb, List.mem_of_getElem? hr⟩

theorem Owned.exists_place (h : a.Owned g Q bs X) (hm : id ∈ X) :
    ∃ w : Place, w.task? a bs = some id := by
  induction h with
  | nil => cases hm
  | cons hb _ _ ih =>
    rcases Finset.mem_union.1 hm with hm | hm
    · obtain ⟨i, root, path, hi, hf⟩ := hb.spans.exists_path hm
      exact ⟨⟨0, i, path⟩, task?_eq_some.2 ⟨_, root, rfl, hi, hf⟩⟩
    · obtain ⟨⟨k, i, path⟩, hw⟩ := ih hm
      exact ⟨⟨k + 1, i, path⟩, hw⟩

theorem Owned.place_unique (h : a.Owned g Q bs X) (hl : a.contains id = true)
    (hw : w.task? a bs = some id) (hv : v.task? a bs = some id) : w = v := by
  induction h generalizing w v with
  | nil => simp [Place.task?] at hw
  | @cons b bs X Y hb hs hd ih =>
    have first {u : Place} (hu : u.task? a (b :: bs) = some id) (h0 : u.bullet = 0) : id ∈ X := by
      obtain ⟨_, root, he, hr, hf⟩ := task?_eq_some.1 hu
      rw [h0] at he
      cases he
      exact hb.spans.mem_of_follow (List.mem_of_getElem? hr) hf hl
    have later {k i : Nat} {p : List Nat}
        (hu : (⟨k + 1, i, p⟩ : Place).task? a (b :: bs) = some id) :
        (⟨k, i, p⟩ : Place).task? a bs = some id := hu
    obtain ⟨k, i, p⟩ := w
    obtain ⟨l, j, q⟩ := v
    cases k with
    | zero =>
      cases l with
      | zero =>
        obtain ⟨_, _, he, hr, hf⟩ := task?_eq_some.1 hw
        obtain ⟨_, _, he', hr', hf'⟩ := task?_eq_some.1 hv
        cases he
        cases he'
        obtain ⟨rfl, rfl⟩ := hb.spans.path_unique hl hr hf hr' hf'
        rfl
      | succ l =>
        exact absurd (hs.mem_of_place (later hv) hl) (Finset.disjoint_left.1 hd (first hw rfl))
    | succ k =>
      cases l with
      | zero =>
        exact absurd (hs.mem_of_place (later hw) hl) (Finset.disjoint_left.1 hd (first hv rfl))
      | succ l =>
        cases ih (later hw) (later hv)
        rfl

theorem Owned.card (h : a.Owned g Q bs X) :
    X.card = (bs.map fun b => (a.below b.tasks).ncard).sum := by
  induction h with
  | nil => rfl
  | cons hb _ hd ih =>
    rw [Finset.card_union_of_disjoint hd, List.map_cons, List.sum_cons, ih, hb.spans.below_eq,
      Set.ncard_coe_finset]

end Arena

namespace Simulation

variable {issued : List BulletId} {s : Simulation}

/-- In every run, the roots of the bullets are live, and each live task stands at one place below
them. So there are as many tasks as in the trees of the bullets together. -/
theorem tasks_have_one_place (h : Reachable (fun _ => True) issued s) :
    (∀ b ∈ s.bullets, ∀ root ∈ b.tasks, s.tasks.contains root = true) ∧
    (∀ id, s.tasks.contains id = true → ∃! w : Place, w.task? s.tasks s.bullets = some id) ∧
    s.tasks.live = (s.bullets.map fun b => (s.tasks.below b.tasks).ncard).sum ∧
    (s.size = 0 → s.tasks.live = 0) := by
  obtain ⟨ho, _, _⟩ := h.orderly (g := False) (Q := fun _ => True) (fun _ _ h => h.elim) nofun
  obtain ⟨X, hX⟩ := ho.tended
  have hcount : s.tasks.live = (s.bullets.map fun b => (s.tasks.below b.tasks).ncard).sum :=
    hX.count.trans hX.owned.card
  refine ⟨?_, ?_, hcount, ?_⟩
  · intro b hb root hr
    obtain ⟨Y, _, hd⟩ := hX.owned.drives hb
    exact hd.live root hr
  · intro id hl
    obtain ⟨w, hw⟩ := hX.owned.exists_place (hX.only id hl)
    exact ⟨w, hw, fun v hv => hX.owned.place_unique hl hv hw⟩
  · intro hz
    have hnil : s.bullets = [] := by
      rw [bullets, Pool.bullets, List.eq_nil_of_length_eq_zero hz]
      rfl
    rw [hcount, hnil]
    rfl

/-- Three tasks wait below the bullet of a spark; after a frame there are the two of its shot. -/
theorem spark_tasks_have_one_place :
    lit.tasks.live = 3 ∧ (lit.update 0).tasks.live = 2 ∧
      ∀ id, (lit.update 0).tasks.contains id = true →
        ∃! w : Place, w.task? (lit.update 0).tasks (lit.update 0).bullets = some id := by
  have hrun : Reachable (fun _ => True) ([] ++ lit.pool.ids ++ (lit.update 0).pool.ids)
      (lit.update 0) :=
    .step (reachable_lit trivial) (.update 0) trivial trivial (by decide +kernel)
  exact ⟨by decide +kernel, by decide +kernel, (tasks_have_one_place hrun).2.1⟩

end Simulation
end Barrage

import Barrage.Proofs.Grafting

namespace Barrage

/-- The elements that are bound to tasks; all others only say more about their parents. -/
def Element.isTask : Element → Bool
  | .action | .actionRef | .fire | .fireRef | .repeat | .wait | .vanish | .changeDirection
  | .changeSpeed | .accel => true
  | _ => false

/-- The references through which a task is reached, the nearest one outermost, each with the values
it passes on. -/
inductive CallChain where
  | initial (params : List Float32)
  | through (caller : CallChain) (ref : NodeId) (values : List Float32)

/-- The parameters in force: those of the nearest reference, or those that binding began with. -/
def CallChain.params : CallChain → List Float32
  | .initial params => params
  | .through _ _ values => values

/-- A tree of tasks in which each task shows how it was reached. -/
inductive ScopedTree where
  | node (node : NodeId) (calls : CallChain) (kind : TaskKind) (children : List ScopedTree)

namespace ScopedTree

mutual

/-- The same tree, of which only the parameters in force are kept. -/
def erase : ScopedTree → TaskTree
  | .node n calls kind children => .node n calls.params kind (eraseAll children)

def eraseAll : List ScopedTree → List TaskTree
  | [] => []
  | tree :: trees => tree.erase :: eraseAll trees

end

theorem eraseAll_append (trees more : List ScopedTree) :
    eraseAll (trees ++ more) = eraseAll trees ++ eraseAll more := by
  induction trees with
  | nil => rfl
  | cons tree trees ih => rw [List.cons_append, eraseAll, eraseAll, ih, List.cons_append]

theorem eraseAll_toList (x : Option ScopedTree) : eraseAll x.toList = (x.map erase).toList := by
  cases x <;> rfl

end ScopedTree

theorem ok_of_map {ε σ α β : Type} {x : EStateM ε σ α} {g : α → β} {s s' : σ} {b : β}
    (h : (g <$> x) s = .ok b s') : ∃ a, x s = .ok a s' ∧ b = g a := by
  cases hx : x s with
  | error e s₁ =>
    rw [map_of_error hx] at h
    cases h
  | ok a s₁ =>
    rw [map_of_ok hx] at h
    cases h
    exact ⟨a, rfl, rfl⟩

theorem Expansion.require_of_ok {α : Type} {found : Except PatternError α} {a : α} (r : Random)
    (h : found = .ok a) : Expansion.require found r = .ok a r := by
  rw [h]
  rfl

theorem Expansion.ok_of_require {α : Type} {found : Except PatternError α} {a : α}
    {r r' : Random} (h : Expansion.require found r = .ok a r') : found = .ok a ∧ r = r' := by
  cases found with
  | error e => cases h
  | ok a =>
    cases h
    exact ⟨rfl, rfl⟩

theorem Pattern.required_eq_ok {p : Pattern} {id c : NodeId} {e : Element} :
    p.required id e = .ok c ↔ p.child? id e = some c := by
  unfold Pattern.required
  split
  · rename_i h
    simp [h]
  · rename_i h
    simp [h]

namespace Binder
open Expansion ScopedTree

variable {b : Binder} {calls inner : CallChain} {n ref target fire bullet body : NodeId}
  {ns : List NodeId} {r r₁ r' : Random} {values params : List Float32} {room : Nat}

/-- The params of a reference in document order, as they read where the reference stands and on the
bullet that is bound for. -/
def passing (b : Binder) (calls : CallChain) (ref : NodeId) (r : Random) :
    List Float32 × Random :=
  b.pattern.evalNodes ⟨calls.params, b.rank, b.bullet.degrees, b.bullet.speed⟩
    (b.pattern.childrenNamed ref .param) r

/-- The bullet of a fire and the scope it stands in: an inline bullet that of the fire, a referenced
one that of its reference. -/
inductive Shoots (b : Binder) (fire : NodeId) (calls : CallChain) (r : Random) :
    NodeId → CallChain → Random → Prop where
  | inline {bullet : NodeId} (hc : b.pattern.child? fire .bullet = some bullet) :
      Shoots b fire calls r bullet calls r
  | named {ref bullet : NodeId} {values : List Float32} {r' : Random}
      (hn : b.pattern.child? fire .bullet = none)
      (hc : b.pattern.child? fire .bulletRef = some ref)
      (ht : b.pattern.resolve ref = .ok bullet) (hv : b.passing calls ref r = (values, r')) :
      Shoots b fire calls r bullet (.through calls ref values) r'

/-- A fire takes its direction and its speed from its own children first, and from those of its
bullet second. -/
def aimed (p : Pattern) (fire bullet : NodeId) : FireState :=
  let source (e : Element) : Option ValueSource :=
    (p.child? fire e).map (⟨·, false⟩) <|> (p.child? bullet e).map (⟨·, true⟩)
  ⟨bullet, source .direction, source .speed⟩

/-- A fire holds its bullet as its only child. -/
def fireTree (p : Pattern) (fire : NodeId) (calls : CallChain) (bullet : NodeId)
    (inner : CallChain) : ScopedTree :=
  .node fire calls (.fire (aimed p fire bullet)) [.node bullet inner .bullet []]

mutual

/-- What a node stands for that is reached through `calls`, with `room` levels left from it on: a
tree of tasks, or nothing where it is no task. A reference stands for what it names, and uses up a
level of its own. Random numbers are drawn only for what references pass on, from `r` to `r'`. -/
inductive Denotes (b : Binder) :
    Nat → CallChain → NodeId → Random → Option ScopedTree → Random → Prop where
  | other {room : Nat} {calls : CallChain} {n : NodeId} {r : Random}
      (he : (b.pattern.element n).isTask = false) : Denotes b (room + 1) calls n r none r
  | action {room : Nat} {calls : CallChain} {n : NodeId} {r r' : Random}
      {trees : List ScopedTree} (he : b.pattern.element n = .action)
      (hc : DenotesAll b room calls (b.pattern.children n) r trees r') :
      Denotes b (room + 1) calls n r (some (.node n calls .action trees)) r'
  | actionRef {room : Nat} {calls : CallChain} {n target : NodeId} {values : List Float32}
      {r r₁ r' : Random} {trees : List ScopedTree} (he : b.pattern.element n = .actionRef)
      (ht : b.pattern.resolve n = .ok target) (hv : b.passing calls n r = (values, r₁))
      (hc : DenotesAll b (room - 1) (.through calls n values) (b.pattern.children target) r₁
        trees r') :
      Denotes b (room + 1) calls n r
        (some (.node target (.through calls n values) .action trees)) r'
  | repeat {room : Nat} {calls : CallChain} {n times body : NodeId} {r r' : Random}
      {tree : ScopedTree} (he : b.pattern.element n = .repeat)
      (ht : b.pattern.child? n .times = some times)
      (hb : (b.pattern.child? n .action <|> b.pattern.child? n .actionRef) = some body)
      (hd : Denotes b room calls body r (some tree) r') :
      Denotes b (room + 1) calls n r (some (.node n calls (.repeat ⟨none, 0, room⟩) [tree])) r'
  | fire {room : Nat} {calls inner : CallChain} {n bullet : NodeId} {r r' : Random}
      (he : b.pattern.element n = .fire) (hs : b.Shoots n calls r bullet inner r') :
      Denotes b (room + 1) calls n r (some (fireTree b.pattern n calls bullet inner)) r'
  | fireRef {room : Nat} {calls inner : CallChain} {n fire bullet : NodeId}
      {values : List Float32} {r r₁ r' : Random} (he : b.pattern.element n = .fireRef)
      (ht : b.pattern.resolve n = .ok fire) (hv : b.passing calls n r = (values, r₁))
      (hs : b.Shoots fire (.through calls n values) r₁ bullet inner r') :
      Denotes b (room + 2) calls n r
        (some (fireTree b.pattern fire (.through calls n values) bullet inner)) r'
  | wait {room : Nat} {calls : CallChain} {n : NodeId} {r : Random}
      (he : b.pattern.element n = .wait) :
      Denotes b (room + 1) calls n r (some (.node n calls (.wait none) [])) r
  | vanish {room : Nat} {calls : CallChain} {n : NodeId} {r : Random}
      (he : b.pattern.element n = .vanish) :
      Denotes b (room + 1) calls n r (some (.node n calls .vanish [])) r
  | changeDirection {room : Nat} {calls : CallChain} {n value term : NodeId} {r : Random}
      (he : b.pattern.element n = .changeDirection)
      (hv : b.pattern.child? n .direction = some value)
      (ht : b.pattern.child? n .term = some term) :
      Denotes b (room + 1) calls n r
        (some (.node n calls (.changeDirection ⟨value, term, none⟩) [])) r
  | changeSpeed {room : Nat} {calls : CallChain} {n value term : NodeId} {r : Random}
      (he : b.pattern.element n = .changeSpeed)
      (hv : b.pattern.child? n .speed = some value)
      (ht : b.pattern.child? n .term = some term) :
      Denotes b (room + 1) calls n r (some (.node n calls (.changeSpeed ⟨value, term, none⟩) [])) r
  | accel {room : Nat} {calls : CallChain} {n term : NodeId} {r : Random}
      (he : b.pattern.element n = .accel) (ht : b.pattern.child? n .term = some term) :
      Denotes b (room + 1) calls n r (some (.node n calls (.accel
        ⟨b.pattern.child? n .horizontal, b.pattern.child? n .vertical, term, none⟩) [])) r

/-- What some nodes stand for in document order, each with the random numbers that the one before
has left. -/
inductive DenotesAll (b : Binder) :
    Nat → CallChain → List NodeId → Random → List ScopedTree → Random → Prop where
  | nil {room : Nat} {calls : CallChain} {r : Random} : DenotesAll b room calls [] r [] r
  | cons {room : Nat} {calls : CallChain} {n : NodeId} {ns : List NodeId} {r r₁ r' : Random}
      {x : Option ScopedTree} {trees : List ScopedTree} (hn : Denotes b room calls n r x r₁)
      (hs : DenotesAll b room calls ns r₁ trees r') :
      DenotesAll b room calls (n :: ns) r (x.toList ++ trees) r'

end

section Parts

theorem passed_eq_ok : b.passed ref calls.params r = .ok values r' ↔
    b.passing calls ref r = (values, r') := by
  have hp : b.passed ref calls.params r =
    .ok (b.passing calls ref r).1 (b.passing calls ref r).2 := rfl
  rw [hp, EStateM.Result.ok.injEq, Prod.ext_iff]

theorem locate_eq (b : Binder) (fire bullet : NodeId) (e : Element) :
    b.locate fire bullet e =
      ((b.pattern.child? fire e).map (⟨·, false⟩) <|>
        (b.pattern.child? bullet e).map (⟨·, true⟩)) := by
  unfold locate
  cases b.pattern.child? fire e <;> rfl

theorem aimed_eq (b : Binder) (fire bullet : NodeId) :
    (⟨bullet, b.locate fire bullet .direction, b.locate fire bullet .speed⟩ : FireState) =
      aimed b.pattern fire bullet := by
  rw [locate_eq, locate_eq]
  rfl

theorem expandBullet_of_shoots (h : b.Shoots fire calls r bullet inner r') :
    b.expandBullet fire calls.params r = .ok (bullet, inner.params) r' := by
  unfold expandBullet
  cases h with
  | inline hc =>
    rw [hc]
    rfl
  | named hn hc ht hv =>
    rw [hn, hc]
    simp only
    rw [bind_of_ok (require_of_ok r ht), bind_of_ok (passed_eq_ok.2 hv)]
    rfl

theorem shoots_of_expandBullet (h : b.expandBullet fire calls.params r = .ok (bullet, params) r') :
    ∃ inner, b.Shoots fire calls r bullet inner r' ∧ params = inner.params := by
  unfold expandBullet at h
  cases hc : b.pattern.child? fire .bullet with
  | some inline =>
    rw [hc] at h
    cases h
    exact ⟨calls, .inline hc, rfl⟩
  | none =>
    cases hr : b.pattern.child? fire .bulletRef with
    | none =>
      rw [hc, hr] at h
      cases h
    | some ref =>
      rw [hc, hr] at h
      obtain ⟨target, _, ht, hx⟩ := ok_of_bind h
      obtain ⟨htarget, rfl⟩ := ok_of_require ht
      obtain ⟨values, _, hv, hx⟩ := ok_of_bind hx
      cases hx
      exact ⟨_, .named hc hr htarget (passed_eq_ok.1 hv), rfl⟩

theorem expandFire_of_shoots (h : b.Shoots fire calls r bullet inner r') :
    b.expandFire fire calls.params r =
      .ok (fireTree b.pattern fire calls bullet inner).erase r' := by
  unfold expandFire
  rw [bind_of_ok (expandBullet_of_shoots h), fireTree, ← aimed_eq]
  rfl

theorem shoots_of_expandFire {tree : TaskTree} (calls : CallChain)
    (h : b.expandFire fire calls.params r = .ok tree r') :
    ∃ bullet inner, b.Shoots fire calls r bullet inner r' ∧
      tree = (fireTree b.pattern fire calls bullet inner).erase := by
  unfold expandFire at h
  obtain ⟨⟨bullet, params⟩, _, hb, h⟩ := ok_of_bind h
  obtain ⟨inner, hs, rfl⟩ := shoots_of_expandBullet hb
  cases h
  refine ⟨bullet, inner, hs, ?_⟩
  rw [fireTree, ← aimed_eq]
  rfl

theorem expandChange_of_child {kind : ChangeState → TaskKind} {e : Element} {value term : NodeId}
    (hv : b.pattern.child? n e = some value) (ht : b.pattern.child? n .term = some term) :
    b.expandChange kind e n params r =
      .ok (.node n params (kind ⟨value, term, none⟩) []) r := by
  rw [expandChange, bind_of_ok (require_of_ok r (Pattern.required_eq_ok.2 hv)),
    bind_of_ok (require_of_ok r (Pattern.required_eq_ok.2 ht))]
  rfl

theorem ok_of_expandChange {kind : ChangeState → TaskKind} {e : Element} {tree : TaskTree}
    (h : b.expandChange kind e n params r = .ok tree r') :
    ∃ value term, b.pattern.child? n e = some value ∧ b.pattern.child? n .term = some term ∧
      tree = .node n params (kind ⟨value, term, none⟩) [] ∧ r = r' := by
  obtain ⟨value, _, hv, hx⟩ := ok_of_bind h
  obtain ⟨hvalue, rfl⟩ := ok_of_require hv
  obtain ⟨term, _, ht, hx⟩ := ok_of_bind hx
  obtain ⟨hterm, rfl⟩ := ok_of_require ht
  cases hx
  exact ⟨value, term, Pattern.required_eq_ok.1 hvalue, Pattern.required_eq_ok.1 hterm, rfl, rfl⟩

end Parts

section Adequacy

/-- The expander finds what a node stands for, and nothing else. -/
def Finds (b : Binder) (room : Nat) : Prop :=
  ∀ calls n r x r', b.expandNode room n calls.params r = .ok x r' ↔
    ∃ y, b.Denotes room calls n r y r' ∧ x = y.map erase

theorem Finds.all (h : b.Finds room) (calls : CallChain) {trees : List TaskTree} :
    expandChildren (b.expandNode room) calls.params ns r = .ok trees r' ↔
      ∃ ys, b.DenotesAll room calls ns r ys r' ∧ trees = eraseAll ys := by
  induction ns generalizing r trees with
  | nil =>
    constructor
    · intro he
      cases he
      exact ⟨[], .nil, rfl⟩
    · rintro ⟨ys, hd, rfl⟩
      cases hd
      rfl
  | cons n ns ih =>
    rw [expandChildren]
    constructor
    · intro he
      obtain ⟨x, r₁, hx, he⟩ := ok_of_bind he
      obtain ⟨rest, r₂, hrest, he⟩ := ok_of_bind he
      obtain ⟨y, hy, rfl⟩ := (h calls n r x r₁).1 hx
      cases he
      obtain ⟨ys, hys, rfl⟩ := ih.1 hrest
      exact ⟨_, .cons hy hys, by rw [eraseAll_append, eraseAll_toList]⟩
    · rintro ⟨ys, hd, rfl⟩
      cases hd with
      | cons hn hs =>
        rw [bind_of_ok ((h calls n r _ _).2 ⟨_, hn, rfl⟩), bind_of_ok (ih.2 ⟨_, hs, rfl⟩),
          eraseAll_append, eraseAll_toList]
        rfl

theorem denotes_of_expandAction {tree : TaskTree} (h : b.Finds room) (calls : CallChain)
    (hx : b.expandAction (b.expandNode room) n calls.params r = .ok tree r') :
    ∃ ys, b.DenotesAll room calls (b.pattern.children n) r ys r' ∧
      tree = (ScopedTree.node n calls .action ys).erase := by
  obtain ⟨trees, r₁, htrees, hx⟩ := ok_of_bind hx
  cases hx
  obtain ⟨ys, hys, rfl⟩ := (h.all calls).1 htrees
  exact ⟨ys, hys, rfl⟩

theorem expandAction_of_denotes {trees : List ScopedTree} (h : b.Finds room)
    (hd : b.DenotesAll room calls (b.pattern.children n) r trees r') :
    b.expandAction (b.expandNode room) n calls.params r =
      .ok (ScopedTree.node n calls .action trees).erase r' := by
  rw [expandAction, bind_of_ok ((h.all calls).2 ⟨_, hd, rfl⟩)]
  rfl

theorem expandBody_of_denotes {tree : ScopedTree} (hc : b.Finds room)
    (hb : (b.pattern.child? n .action <|> b.pattern.child? n .actionRef) = some body)
    (hd : b.Denotes room calls body r (some tree) r') :
    b.expandBody (b.expandNode room) n calls.params r = .ok tree.erase r' := by
  unfold expandBody
  rw [hb]
  simp only
  rw [bind_of_ok ((hc calls body r _ r').2 ⟨_, hd, rfl⟩)]
  rfl

theorem denotes_of_expandBody {tree : TaskTree} (hc : b.Finds room)
    (h : b.expandBody (b.expandNode room) n calls.params r = .ok tree r') :
    ∃ body y, (b.pattern.child? n .action <|> b.pattern.child? n .actionRef) = some body ∧
      b.Denotes room calls body r (some y) r' ∧ tree = y.erase := by
  unfold expandBody at h
  cases hb : b.pattern.child? n .action <|> b.pattern.child? n .actionRef with
  | none =>
    rw [hb] at h
    cases h
  | some body =>
    rw [hb] at h
    obtain ⟨x, r₁, hx, h⟩ := ok_of_bind h
    obtain ⟨y, hy, rfl⟩ := (hc calls body r x r₁).1 hx
    cases y with
    | none => cases h
    | some y =>
      cases h
      exact ⟨body, y, rfl, hy, rfl⟩

theorem expandNode_of_denotes {y : Option ScopedTree} (hc : b.Finds room)
    (hb : b.Finds (room - 1)) (h : b.Denotes (room + 1) calls n r y r') :
    b.expandNode (room + 1) n calls.params r = .ok (y.map erase) r' := by
  rw [expandNode_succ, expandOver]
  cases h with
  | other he =>
    revert he
    cases b.pattern.element n <;> simp [Element.isTask] <;> rfl
  | action he hd =>
    rw [he]
    exact map_of_ok (expandAction_of_denotes hc hd)
  | actionRef he ht hv hd =>
    rw [he]
    simp only
    rw [bind_of_ok (require_of_ok r ht), bind_of_ok (passed_eq_ok.2 hv)]
    exact map_of_ok (expandAction_of_denotes hb hd)
  | «repeat» he ht hbody hd =>
    rw [he]
    apply map_of_ok
    rw [expandRepeat, bind_of_ok (require_of_ok r (Pattern.required_eq_ok.2 ht)),
      bind_of_ok (expandBody_of_denotes hc hbody hd)]
    rfl
  | fire he hs =>
    rw [he]
    exact map_of_ok (expandFire_of_shoots hs)
  | fireRef he ht hv hs =>
    rw [he]
    apply map_of_ok
    rw [expandFireRef, bind_of_ok (require_of_ok r ht), bind_of_ok (passed_eq_ok.2 hv)]
    exact expandFire_of_shoots hs
  | wait he =>
    rw [he]
    rfl
  | vanish he =>
    rw [he]
    rfl
  | changeDirection he hv ht =>
    rw [he]
    exact map_of_ok (expandChange_of_child hv ht)
  | changeSpeed he hv ht =>
    rw [he]
    exact map_of_ok (expandChange_of_child hv ht)
  | accel he ht =>
    rw [he]
    apply map_of_ok
    rw [expandAccel, bind_of_ok (require_of_ok r (Pattern.required_eq_ok.2 ht))]
    rfl

/-- A node that is bound to tasks denotes them. There is one rule for each element. -/
theorem denotes_of_expandNode {x : Option TaskTree} (hc : b.Finds room) (hb : b.Finds (room - 1))
    (h : b.expandNode (room + 1) n calls.params r = .ok x r') :
    ∃ y, b.Denotes (room + 1) calls n r y r' ∧ x = y.map erase := by
  rw [expandNode_succ, expandOver] at h
  cases he : b.pattern.element n <;> rw [he] at h
  case action =>
    obtain ⟨tree, hx, rfl⟩ := ok_of_map h
    obtain ⟨ys, hys, rfl⟩ := denotes_of_expandAction hc calls hx
    exact ⟨_, .action he hys, rfl⟩
  case actionRef =>
    obtain ⟨target, _, ht, hx⟩ := ok_of_bind h
    obtain ⟨htarget, rfl⟩ := ok_of_require ht
    obtain ⟨values, r₁, hv, hx⟩ := ok_of_bind hx
    obtain ⟨tree, htree, rfl⟩ := ok_of_map hx
    obtain ⟨ys, hys, rfl⟩ := denotes_of_expandAction hb (.through calls n values) htree
    exact ⟨_, .actionRef he htarget (passed_eq_ok.1 hv) hys, rfl⟩
  case fire =>
    obtain ⟨tree, hx, rfl⟩ := ok_of_map h
    obtain ⟨bullet, inner, hs, rfl⟩ := shoots_of_expandFire calls hx
    exact ⟨_, .fire he hs, rfl⟩
  case fireRef =>
    obtain ⟨tree, hx, rfl⟩ := ok_of_map h
    obtain ⟨fire, _, ht, hx⟩ := ok_of_bind hx
    obtain ⟨hfire, rfl⟩ := ok_of_require ht
    obtain ⟨values, r₁, hv, hx⟩ := ok_of_bind hx
    cases room with
    | zero => cases hx
    | succ room =>
      obtain ⟨bullet, inner, hs, rfl⟩ := shoots_of_expandFire (.through calls n values) hx
      exact ⟨_, .fireRef he hfire (passed_eq_ok.1 hv) hs, rfl⟩
  case «repeat» =>
    obtain ⟨tree, hx, rfl⟩ := ok_of_map h
    obtain ⟨times, _, ht, hx⟩ := ok_of_bind hx
    obtain ⟨htimes, rfl⟩ := ok_of_require ht
    obtain ⟨body, _, hbody, hx⟩ := ok_of_bind hx
    cases hx
    obtain ⟨node, y, hnode, hy, rfl⟩ := denotes_of_expandBody hc hbody
    exact ⟨_, .repeat he (Pattern.required_eq_ok.1 htimes) hnode hy, rfl⟩
  case wait =>
    cases h
    exact ⟨_, .wait he, rfl⟩
  case vanish =>
    cases h
    exact ⟨_, .vanish he, rfl⟩
  case changeDirection =>
    obtain ⟨tree, hx, rfl⟩ := ok_of_map h
    obtain ⟨value, term, hv, ht, rfl, rfl⟩ := ok_of_expandChange hx
    exact ⟨_, .changeDirection he hv ht, rfl⟩
  case changeSpeed =>
    obtain ⟨tree, hx, rfl⟩ := ok_of_map h
    obtain ⟨value, term, hv, ht, rfl, rfl⟩ := ok_of_expandChange hx
    exact ⟨_, .changeSpeed he hv ht, rfl⟩
  case accel =>
    obtain ⟨tree, hx, rfl⟩ := ok_of_map h
    obtain ⟨term, _, ht, hx⟩ := ok_of_bind hx
    obtain ⟨hterm, rfl⟩ := ok_of_require ht
    cases hx
    exact ⟨_, .accel he (Pattern.required_eq_ok.1 hterm), rfl⟩
  all_goals
    cases h
    exact ⟨none, .other (by rw [he]; rfl), rfl⟩

theorem finds_all_levels (b : Binder) (room : Nat) : b.Finds room := by
  induction room using Nat.strongRecOn with
  | ind room ih =>
    intro calls n r x r'
    cases room with
    | zero =>
      constructor
      · intro h
        cases h
      · rintro ⟨y, hd, _⟩
        cases hd
    | succ room =>
      have hc := ih room (Nat.lt_succ_self room)
      have hb := ih (room - 1) (Nat.lt_succ_of_le (Nat.sub_le room 1))
      constructor
      · exact denotes_of_expandNode hc hb
      · rintro ⟨y, hd, rfl⟩
        exact expandNode_of_denotes hc hb hd

/-- What a node denotes is fixed by the pattern, the parameters and the random numbers. -/
theorem denotes_unique {y z : Option ScopedTree} {s : Random}
    (hy : b.Denotes room calls n r y r') (hz : b.Denotes room calls n r z s) :
    z.map erase = y.map erase ∧ s = r' := by
  have hx := (b.finds_all_levels room calls n r _ r').2 ⟨y, hy, rfl⟩
  have hx' := (b.finds_all_levels room calls n r _ s).2 ⟨z, hz, rfl⟩
  rw [hx, EStateM.Result.ok.injEq] at hx'
  exact ⟨hx'.1.symm, hx'.2.symm⟩

end Adequacy

/-- A node that is bound puts the tree into the arena that it denotes, where an action becomes its
children, a reference what it names under the parameters that it passes on, and a fire holds its
bullet. The random numbers are those that are left after what the references pass on. -/
theorem bound_as_denoted {owner : Option TaskId} {s s' : BindState} {id : TaskId}
    (hs : s.tasks.Sound) (h : b.bindNode room n owner params s = .ok (some id) s') :
    ∃ tree, b.Denotes room (.initial params) n s.random (some tree) s'.random ∧
      s.tasks.Plants s'.tasks owner [id] [tree.erase] ∧
      ∀ y r, b.Denotes room (.initial params) n s.random y r →
        y.map erase = some tree.erase ∧ r = s'.random := by
  have hb := b.follows_node room n owner params s hs
  rw [h] at hb
  generalize hx : b.expandNode room n params s.random = x at hb
  cases hb with
  | ok hr hh =>
    obtain ⟨y, hy, he⟩ := (b.finds_all_levels room (.initial params) n s.random _ _).1 hx
    cases y with
    | none => cases he
    | some tree =>
      cases he
      exact ⟨tree, hy, hr.plants hh, fun _ _ => denotes_unique hy⟩

/-- Several nodes that are bound as roots are bound one after the other as they denote. -/
theorem roots_bound_as_denoted {owner : Option TaskId} {nodes : List NodeId} {roots : List TaskId}
    {s s' : BindState} (hs : s.tasks.Sound)
    (h : b.bindRoots owner params nodes [] s = .ok roots s') :
    ∃ trees X, b.DenotesAll (maxNestDepth + 1) (.initial params) nodes s.random trees s'.random ∧
      s.tasks.Replaces s'.tasks ∅ X ∧ s'.tasks.Holds owner roots (eraseAll trees) X := by
  have hb : BindsRoots owner [] ∅ s (b.bindRoots owner params nodes [] s) _ :=
    binds_roots nodes hs .nil
  rw [h] at hb
  generalize hx : expandChildren _ _ _ _ = x at hb
  cases hb with
  | ok hr hh =>
    obtain ⟨trees, hd, rfl⟩ :=
      ((b.finds_all_levels (maxNestDepth + 1)).all (.initial params)).1 hx
    exact ⟨trees, _, hd, hr, hh⟩

end Binder

/-- A pattern whose top action waits by way of a reference that passes a value on. -/
def Pattern.relay : Pattern :=
  let p := ((ofName "relay").addNode root .action).2
  let p := (p.setLabel ⟨1⟩ "top").1
  let p := (p.addNode ⟨1⟩ .actionRef).2
  let p := (p.setLabel ⟨2⟩ "pause").1
  let p := (p.addNode ⟨2⟩ .param).2
  let p := (p.addNode root .action).2
  let p := (p.setLabel ⟨4⟩ "pause").1
  (p.addNode ⟨4⟩ .wait).2

/-- The wait of a relay has the parameter that the reference passes on, and its two actions do not
share their parameters. -/
theorem Binder.relay_bound_as_denoted :
    let b : Binder := ⟨.relay, 0, .atRest ⟨0, 0⟩⟩
    Arena.empty.Sound ∧ ∃ id s' tree,
      b.bindNode (maxNestDepth + 1) ⟨1⟩ none [] ⟨.empty, .ofSeed 0⟩ = .ok (some id) s' ∧
      b.Denotes (maxNestDepth + 1) (.initial []) ⟨1⟩ (.ofSeed 0) (some tree) s'.random ∧
      Arena.empty.Plants s'.tasks none [id] [tree.erase] ∧
      tree.erase =
        .node ⟨1⟩ [] .action [.node ⟨4⟩ [0] .action [.node ⟨5⟩ [0] (.wait none) []]] := by
  intro b
  obtain ⟨id, s', h⟩ : ∃ id s', b.bindNode (maxNestDepth + 1) ⟨1⟩ none [] ⟨.empty, .ofSeed 0⟩ =
    .ok (some id) s' := ⟨_, _, rfl⟩
  obtain ⟨tree, hd, hp, hone⟩ := bound_as_denoted Arena.sound_empty h
  refine ⟨Arena.sound_empty, id, s', tree, h, hd, hp, ?_⟩
  have hx := (b.finds_all_levels _ (.initial []) ⟨1⟩ (.ofSeed 0) _ s'.random).2 ⟨_, hd, rfl⟩
  have hrun : b.expandNode (maxNestDepth + 1) ⟨1⟩ [] (.ofSeed 0) = .ok (some
    (.node ⟨1⟩ [] .action [.node ⟨4⟩ [0] .action [.node ⟨5⟩ [0] (.wait none) []]])) _ := rfl
  rw [CallChain.params, hrun, EStateM.Result.ok.injEq] at hx
  exact (Option.some.inj hx.1).symm

end Barrage

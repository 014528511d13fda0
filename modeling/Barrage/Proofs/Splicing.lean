import Barrage.Proofs.Host
import Barrage.Proofs.Transparency

namespace Barrage

namespace Pattern

/-- The nodes are told that they have another parent. -/
def adopt (p : Pattern) (parent : NodeId) (ids : List NodeId) : Pattern :=
  ids.foldl (fun p id => p.modifyNode id fun n => { n with parent := some parent }) p

/-- Other nodes stand in the place of a child, which is then the child of none. -/
def splice (p : Pattern) (parent child : NodeId) (ids : List NodeId) : Pattern :=
  (p.adopt parent ids).modifyNode parent fun n => { n with
    children := (n.children.toList.flatMap fun c => if c = child then ids else [c]).toArray }

/-- The children of a node stand in its place. -/
def dissolve (p : Pattern) (parent child : NodeId) : Pattern :=
  p.splice parent child (p.children child)

/-- As many times the body of a `repeat` stands in the place of it. -/
def unroll (p : Pattern) (parent child body : NodeId) (times : UInt32) : Pattern :=
  p.splice parent child (List.replicate times.toNat body)

variable {p : Pattern} {parent child body : NodeId} {ids : List NodeId} {move : Move}

theorem adopt_spec (p : Pattern) (parent : NodeId) (ids : List NodeId) :
    (p.adopt parent ids).definitions = p.definitions ∧ (p.adopt parent ids).size = p.size ∧
      ∀ k, ∃ above, (p.adopt parent ids).node k = { p.node k with parent := above } := by
  induction ids generalizing p with
  | nil => exact ⟨rfl, rfl, fun k => ⟨(p.node k).parent, rfl⟩⟩
  | cons id ids ih =>
    obtain ⟨hdefs, hsize, hnode⟩ :=
      ih (p.modifyNode id fun n => { n with parent := some parent })
    refine ⟨hdefs, hsize.trans (size_modifyNode _), fun k => ?_⟩
    obtain ⟨above, habove⟩ := hnode k
    refine ⟨above, habove.trans ?_⟩
    rw [node_modifyNode]
    split
    · rename_i hk
      rw [hk.1]
    · rfl

/-- Only the parents of nodes and the children of one of them are changed. -/
theorem node_splice (p : Pattern) (parent child : NodeId) (ids : List NodeId) (k : NodeId) :
    ∃ above below, (p.splice parent child ids).node k =
        { p.node k with parent := above, children := below } ∧
      below.toList = if k = parent then
        (p.children k).flatMap fun c => if c = child then ids else [c] else p.children k := by
  obtain ⟨_, hsize, hnode⟩ := adopt_spec p parent ids
  obtain ⟨above, habove⟩ := hnode k
  rw [splice, node_modifyNode]
  by_cases hk : k = parent
  · subst hk
    by_cases hi : p.Has k
    · have hi' : (p.adopt k ids).Has k := by
        rw [Has, hsize]
        exact hi
      rw [if_pos ⟨rfl, hi'⟩, if_pos rfl, habove]
      exact ⟨above, _, rfl, List.toList_toArray⟩
    · have hi' : ¬(p.adopt k ids).Has k := by
        rw [Has, hsize]
        exact hi
      rw [if_neg fun h => hi' h.2, if_pos rfl, habove, children_of_not_has hi]
      exact ⟨above, (p.node k).children, rfl, children_of_not_has hi⟩
  · rw [if_neg fun h => hk h.1, if_neg hk, habove]
    exact ⟨above, _, rfl, rfl⟩

theorem lookup?_splice (p : Pattern) (parent child : NodeId) (ids : List NodeId) (kind : Element)
    (label : String) : (p.splice parent child ids).lookup? kind label = p.lookup? kind label := by
  have hdefs : (p.splice parent child ids).definitions = p.definitions := (adopt_spec p _ _).1
  rw [lookup?, lookup?, hdefs]

/-- A child of an action may be replaced by what can stand in its place. -/
theorem recasts_splice (hp : p.Closed) (hroot : p.element root = .bulletml)
    (ha : p.element parent = .action)
    (hs : ∀ cs ds, Aligned move p (p.splice parent child ids) Eq true cs ds →
      Aligned move p (p.splice parent child ids) Eq true (child :: cs) (ids ++ ds)) :
    Recasts move p (p.splice parent child ids) Eq where
  closed := hp
  outer := hroot
  root := rfl
  element := by
    rintro k _ rfl
    obtain ⟨above, below, hk, _⟩ := node_splice p parent child ids k
    rw [element, element, hk]
  label := by
    rintro k _ rfl
    obtain ⟨above, below, hk, _⟩ := node_splice p parent child ids k
    rw [hk]
  mode := by
    rintro k _ rfl
    obtain ⟨above, below, hk, _⟩ := node_splice p parent child ids k
    rw [mode, mode, hk]
  expr := by
    rintro k _ rfl
    obtain ⟨above, below, hk, _⟩ := node_splice p parent child ids k
    rw [hk]
  children := by
    rintro k _ rfl
    obtain ⟨above, below, hk, hbelow⟩ := node_splice p parent child ids k
    have hchildren : (p.splice parent child ids).children k = below.toList := by rw [children, hk]
    rw [hchildren, hbelow]
    split
    · rename_i he
      rw [he, ha]
      induction p.children parent with
      | nil => exact .nil
      | cons c cs ih =>
        rw [List.flatMap_cons]
        split
        · rename_i hc
          rw [hc]
          exact hs _ _ ih
        · exact .keep rfl ih
    · exact aligned_of_forall₂ (List.forall₂_same.2 fun _ _ => rfl)
  lookup kind label := by
    rw [lookup?_splice]
    cases p.lookup? kind label with
    | none => exact .none
    | some n => exact .some rfl

/-- An action in an action may be replaced by its children. -/
theorem recasts_dissolve (hp : p.Closed) (hroot : p.element root = .bulletml)
    (ha : p.element parent = .action) (hc : p.element child = .action) :
    Recasts .dissolve p (p.dissolve parent child) Eq :=
  recasts_splice hp hroot ha fun _ _ hs =>
    .dissolve rfl hc (aligned_of_forall₂ (List.forall₂_same.2 fun _ _ => rfl)) hs

/-- A `repeat` in an action may be replaced by its body, as many times as it runs that. -/
theorem recasts_unroll {times : UInt32} (hp : p.Closed) (hroot : p.element root = .bulletml)
    (ha : p.element parent = .action) (hr : p.Rolls child times body) :
    Recasts .unroll p (p.unroll parent child body times) Eq :=
  recasts_splice hp hroot ha fun _ _ hs =>
    .unroll rfl hr List.length_replicate (fun _ hd => (List.eq_of_mem_replicate hd).symm) hs

end Pattern

namespace HostCall

variable {p q : Pattern} {ρ : NodeId → NodeId → Prop} {calls calls' : List HostCall}

/-- Nested actions are transparent: where actions in actions are replaced by their children, nothing
that a host can see of a run changes, unless the tasks of the first pattern are nested too deep. -/
theorem nested_actions_are_transparent (h : Pattern.Recasts .dissolve p q ρ) (capacity : Nat)
    (seed : UInt64) (rank : Float32) (cull : Option Bounds) (margin : Float32)
    (hc : List.Forall₂ (Swaps p q) calls calls')
    (hf : SufficeAll p calls (.init capacity seed rank cull margin))
    (hw : (performAll calls (.init capacity seed rank cull margin)).tasks.NoWrap)
    (hw' : (performAll calls' (.init capacity seed rank cull margin)).tasks.NoWrap) :
    RunAlike calls calls' (.init capacity seed rank cull margin) :=
  run_alike h hc (Simulation.paired_init capacity seed rank cull margin) hf hw hw'

end HostCall

/-- A pattern whose top action rests in an action of its own between two shots. -/
def Pattern.nest : Pattern :=
  let p := ((ofName "nest").addNode root .action).2
  let p := (p.setLabel ⟨1⟩ "top").1
  let p := (p.addNode ⟨1⟩ .action).2
  let p := (p.addNode ⟨2⟩ .fire).2
  let p := (p.addNode ⟨3⟩ .bullet).2
  let p := (p.addNode ⟨2⟩ .wait).2
  let p := p.setExpr ⟨5⟩ (.const 1)
  let p := (p.addNode ⟨1⟩ .fire).2
  let p := (p.addNode ⟨6⟩ .bullet).2
  (p.addNode ⟨1⟩ .vanish).2

/-- The shots of two frames, after which the emitter is gone. -/
def HostCall.twoFrames (p : Pattern) : List HostCall := [.spawn p .zero, .update 0, .update 0]

theorem HostCall.nest_is_transparent :
    (Pattern.nest.dissolve ⟨1⟩ ⟨2⟩).children ⟨1⟩ = [⟨3⟩, ⟨5⟩, ⟨6⟩, ⟨8⟩] ∧
    (performAll (twoFrames .nest) (.init 8 0 0 none 0)).context.stats = ⟨2, 0, 1⟩ ∧
    RunAlike (twoFrames .nest) (twoFrames (Pattern.nest.dissolve ⟨1⟩ ⟨2⟩)) (.init 8 0 0 none 0) := by
  have hbuilt : Pattern.nest.Built := by
    refine .addNode _ _ (.addNode _ _ (.addNode _ _ (.setExpr _ (.addNode _ _ (.addNode _ _
      (.addNode _ _ (.addNode _ _ (.setLabel _ (.addNode _ _ (.ofName "nest") ?_) ?_) ?_) ?_) ?_)
        ?_) ?_) ?_) ?_) ?_
    all_goals decide +kernel
  have hswaps : List.Forall₂ (Swaps .nest (Pattern.nest.dissolve ⟨1⟩ ⟨2⟩)) (twoFrames .nest)
      (twoFrames (Pattern.nest.dissolve ⟨1⟩ ⟨2⟩)) :=
    .cons (.spawn .zero) (.cons (.same nofun) (.cons (.same nofun) .nil))
  refine ⟨by decide +kernel, by decide +kernel, ?_⟩
  apply nested_actions_are_transparent (Pattern.recasts_dissolve hbuilt.closed rfl rfl rfl) 8 0
    0 none 0 hswaps
  · exact sufficeAll_of_areFed (by decide +kernel) _
  · decide +kernel
  · decide +kernel

end Barrage

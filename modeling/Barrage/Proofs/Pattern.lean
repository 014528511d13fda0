import Barrage.Pattern.Basic

namespace Barrage.Pattern

/-- The node is one of the pattern. -/
def Has (p : Pattern) (id : NodeId) : Prop := id.index < p.size

instance (p : Pattern) (id : NodeId) : Decidable (p.Has id) := Nat.decLt _ _

/-- The pattern was put together node by node. A node may stand under itself. -/
inductive Built : Pattern → Prop where
  | ofName (name : String) : Built (.ofName name)
  | addNode (parent : NodeId) (e : Element) (hp : Built p) (hi : parent.index ≤ p.size) :
      Built (p.addNode parent e).2
  | setLabel (label : String) (hp : Built p) (hi : p.Has n) : Built (p.setLabel n label).1
  | setMode (mode : Mode) (hp : Built p) (hi : p.Has n) : Built (p.setMode n mode)
  | setExpr (e : Expr) (hp : Built p) (hi : p.Has n) : Built (p.setExpr n e)

/-- Children and definitions are nodes of the pattern, and a definition is of the kind it is listed
under. -/
structure Closed (p : Pattern) : Prop where
  root : 0 < p.size
  children : ∀ id, ∀ c ∈ p.children id, p.Has c
  definitions : ∀ d ∈ p.definitions, p.Has d.node ∧ p.element d.node = d.kind

variable {p : Pattern} {id c : NodeId} {e : Element}

theorem size_modifyNode (f : Node → Node) : (p.modifyNode id f).size = p.size :=
  Array.size_modify

theorem node_modifyNode (f : Node → Node) :
    (p.modifyNode id f).node k = if k = id ∧ p.Has id then f (p.node id) else p.node k := by
  by_cases hk : k = id
  · subst hk
    by_cases hi : p.Has k
    · have hi' : k.index < p.nodes.size := hi
      simp [node, node?, modifyNode, Array.getElem_modify, hi, hi']
    · have hi' : ¬k.index < p.nodes.size := hi
      simp [node, node?, modifyNode, hi, hi']
  · have hi : ¬id.index = k.index := by
      intro h
      apply hk
      cases k
      cases id
      exact congrArg NodeId.mk h.symm
    simp [node, node?, modifyNode, Array.getElem?_modify, hk, hi]

theorem node_of_not_has (h : ¬p.Has id) : p.node id = .bare .bulletml none := by
  have hi : p.nodes.size ≤ id.index := Nat.le_of_not_lt h
  simp [node, node?, Array.getElem?_eq_none hi]

theorem children_of_not_has (h : ¬p.Has id) : p.children id = [] := by
  rw [children, node_of_not_has h]
  rfl

theorem has_of_mem_children (h : c ∈ p.children id) : p.Has id := by
  apply Decidable.byContradiction
  intro hn
  rw [children_of_not_has hn] at h
  cases h

theorem Closed.modifyNode (hc : p.Closed) {f : Node → Node}
    (he : ∀ n, (f n).element = n.element)
    (hf : ∀ n, ∀ c ∈ (f n).children.toList, c ∈ n.children.toList ∨ p.Has c) :
    (p.modifyNode id f).Closed where
  root := by
    rw [size_modifyNode]
    exact hc.root
  children k c hm := by
    rw [Has, size_modifyNode]
    rw [Pattern.children, node_modifyNode] at hm
    split at hm
    · exact (hf _ c hm).elim (hc.children id c) fun h => h
    · exact hc.children k c hm
  definitions d hd := by
    obtain ⟨hn, hk⟩ := hc.definitions d hd
    constructor
    · rw [Has, size_modifyNode]
      exact hn
    · rw [element, node_modifyNode]
      split
      · rename_i h
        rw [he, ← h.1]
        exact hk
      · exact hk

theorem node_push {n : Node} (h : p.Has id) :
    ({ p with nodes := p.nodes.push n } : Pattern).node id = p.node id := by
  have hi : id.index < p.nodes.size := h
  have hne : id.index ≠ p.nodes.size := Nat.ne_of_lt hi
  simp [node, node?, Array.getElem?_push, hne]

theorem Closed.push (hc : p.Closed) (e : Element) (parent : Option NodeId) :
    ({ p with nodes := p.nodes.push (.bare e parent) } : Pattern).Closed where
  root := by simp [size]
  children k c hm := by
    have hsize : ({ p with nodes := p.nodes.push (.bare e parent) } : Pattern).size = p.size + 1 :=
      Array.size_push _
    rw [Has, hsize]
    by_cases hk : p.Has k
    · rw [Pattern.children, node_push hk] at hm
      exact Nat.lt_succ_of_lt (hc.children k c hm)
    · by_cases he : k.index = p.nodes.size
      · simp [Pattern.children, node, node?, he, Node.bare] at hm
      · rw [children_of_not_has] at hm
        · cases hm
        · intro h
          rw [Has, hsize] at h
          have : ¬k.index < p.nodes.size := hk
          have : k.index < p.nodes.size + 1 := h
          omega
  definitions d hd := by
    obtain ⟨hn, hk⟩ := hc.definitions d hd
    have hsize : ({ p with nodes := p.nodes.push (.bare e parent) } : Pattern).size = p.size + 1 :=
      Array.size_push _
    constructor
    · rw [Has, hsize]
      exact Nat.lt_succ_of_lt hn
    · rw [element, node_push hn]
      exact hk

theorem Closed.addNode (hc : p.Closed) (parent : NodeId) (e : Element) :
    (p.addNode parent e).2.Closed := by
  refine (hc.push e (some parent)).modifyNode (fun _ => rfl) ?_
  intro n c hm
  rw [Array.toList_push, List.mem_append] at hm
  apply hm.imp_right
  intro h
  rw [List.mem_singleton.1 h]
  simp [Has, size]

theorem Closed.setLabel (hc : p.Closed) (hi : p.Has id) (label : String) :
    (p.setLabel id label).1.Closed := by
  have hl : (p.modifyNode id fun n => { n with label := some label }).Closed :=
    hc.modifyNode (fun _ => rfl) fun _ _ h => .inl h
  simp only [Pattern.setLabel]
  split
  · refine ⟨hl.root, hl.children, ?_⟩
    intro d hd
    rcases List.mem_cons.1 hd with rfl | hd
    · constructor
      · simpa [Has, size, Pattern.modifyNode] using hi
      · have hn : (p.modifyNode id fun n => { n with label := some label }).node id = _ :=
          node_modifyNode _
        rw [if_pos ⟨rfl, hi⟩] at hn
        exact (congrArg Node.element hn :)
    · exact hl.definitions d hd
  · exact hl

/-- Every pattern that can be built is closed. -/
theorem Built.closed (h : p.Built) : p.Closed := by
  induction h with
  | ofName name =>
    refine ⟨by simp [size, Pattern.ofName], ?_, by simp [Pattern.ofName]⟩
    intro id c hm
    have hn : (Pattern.ofName name).node id = .bare .bulletml none := by
      rcases id with ⟨_ | i⟩
      · rfl
      · simp [node, node?, Pattern.ofName]
    rw [children, hn] at hm
    simp [Node.bare] at hm
  | addNode parent e _ _ ih => exact ih.addNode parent e
  | setLabel label _ hi ih => exact ih.setLabel hi label
  | setMode mode _ _ ih => exact ih.modifyNode (fun _ => rfl) fun _ _ h => .inl h
  | setExpr e _ _ ih => exact ih.modifyNode (fun _ => rfl) fun _ _ h => .inl h

theorem child?_mem (h : p.child? id e = some c) : c ∈ p.children id ∧ p.element c = e := by
  have hm := List.mem_of_find?_eq_some h
  have he := List.find?_some h
  exact ⟨hm, by simpa using he⟩

theorem Closed.child? (hp : p.Closed) (h : p.child? id e = some c) : p.Has c :=
  hp.children id c (child?_mem h).1

theorem Closed.topActions (hp : p.Closed) (h : c ∈ p.topActions) : p.Has c :=
  hp.children _ c (List.mem_filter.1 (List.mem_filter.1 h).1).1

theorem Closed.required (hp : p.Closed) (h : p.required id e = .ok c) : p.Has c := by
  unfold Pattern.required at h
  split at h
  · rename_i hc
    cases h
    exact hp.child? hc
  · cases h

/-- A reference leads to a definition of the kind it names. -/
theorem Closed.resolve (hp : p.Closed) (ht : (p.element id).refTarget? = some e)
    (h : p.resolve id = .ok c) : p.Has c ∧ p.element c = e := by
  unfold Pattern.resolve at h
  rw [ht] at h
  simp only at h
  split at h
  · rename_i hl
    cases h
    obtain ⟨d, hd, rfl⟩ := Option.map_eq_some_iff.1 hl
    obtain ⟨hn, hk⟩ := hp.definitions d (List.mem_of_find?_eq_some hd)
    have hkind := List.find?_some hd
    simp only [Bool.and_eq_true, beq_iff_eq] at hkind
    exact ⟨hn, hk.trans hkind.1⟩
  · cases h

/-- What binding or running the pattern can fail with: a lack of levels, or, if it has a fault, any
fault of a pattern. -/
def Raises (p : Pattern) (e : PatternError) : Prop :=
  e = .recursionLimit maxNestDepth ∨ p.validate ≠ .ok () ∧ ∀ id, e ≠ .staleTask id

theorem forM_ok {α : Type} {f : α → Except PatternError Unit} {l : List α}
    (h : l.forM f = .ok ()) {a : α} (ha : a ∈ l) : f a = .ok () := by
  induction l with
  | nil => cases ha
  | cons b l ih =>
    have hcons : (f b >>= fun _ => l.forM f) = .ok () := h
    cases hb : f b with
    | error e =>
      rw [hb] at hcons
      cases hcons
    | ok u =>
      rw [hb] at hcons
      rcases List.mem_cons.1 ha with rfl | ha
      · exact hb
      · exact ih hcons ha

theorem checkNode_of_validate (hv : p.validate = .ok ()) (h : p.Has id) : p.checkNode id = .ok () :=
  forM_ok hv (List.mem_map.2 ⟨id.index, List.mem_range.2 h, rfl⟩)

theorem raises_of_check (hi : p.Has id) (hc : p.checkNode id ≠ .ok ()) {e : PatternError}
    (he : ∀ id, e ≠ .staleTask id) : p.Raises e :=
  .inr ⟨fun hv => hc (checkNode_of_validate hv hi), he⟩

theorem raises_recursionLimit : p.Raises (.recursionLimit maxNestDepth) := .inl rfl

theorem Raises.not_stale {e : PatternError} (h : p.Raises e) (task : TaskId) :
    e ≠ .staleTask task := by
  rcases h with rfl | h
  · exact nofun
  · exact h.2 task

theorem Raises.of_valid {e : PatternError} (h : p.Raises e) (hv : p.validate = .ok ()) :
    e = .recursionLimit maxNestDepth :=
  h.resolve_right fun hn => hn.1 hv

end Barrage.Pattern

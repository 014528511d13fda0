import Barrage.Pattern.Document
import Barrage.Proofs.Binding
import Barrage.Proofs.Pattern

namespace Barrage

/-- The element that an event opens, if it opens one that there is. -/
def Markup.Event.element? : Event → Option Element
  | .opening tag | .empty tag => Element.ofName? (Text.decodeLossy (localName tag.name))
  | _ => none

namespace Pattern

/-- The node and what stands below it take up at most `n` levels. -/
inductive Shallow (p : Pattern) : Nat → NodeId → Prop where
  | node {n : Nat} {id : NodeId} (hc : ∀ c ∈ p.children id, Shallow p n c) : Shallow p (n + 1) id

/-- Children stand one level below their parent, and no node is deeper than elements may be
nested. -/
structure Graded (p : Pattern) (depth : NodeId → Nat) : Prop where
  root : depth Pattern.root = 0
  child : ∀ id, ∀ c ∈ p.children id, depth c = depth id + 1
  bound : ∀ id, p.Has id → depth id ≤ maxNestDepth

/-- The two patterns are the same tree of elements, whatever is said of its nodes. -/
structure Retains (p p' : Pattern) : Prop where
  built : p.Built → p'.Built
  size : p'.size = p.size
  children : ∀ id, p'.children id = p.children id
  element : ∀ id, p'.element id = p.element id

variable {p p' p'' : Pattern} {id c parent : NodeId} {e : Element} {depth : NodeId → Nat}
  {n : Nat}

theorem Shallow.of_child (h : p.Shallow (n + 1) id) (hc : c ∈ p.children id) : p.Shallow n c := by
  cases h with
  | node h => exact h c hc

/-- The deeper a node stands, the fewer levels there are below it. -/
theorem Graded.shallow (h : p.Graded depth) (hp : p.Closed) (hi : p.Has id)
    (hn : maxNestDepth < depth id + n) : p.Shallow n id := by
  induction n generalizing id with
  | zero => exact absurd (h.bound id hi) (Nat.not_le_of_lt hn)
  | succ n ih =>
    apply Shallow.node
    intro c hc
    apply ih (hp.children id c hc)
    rw [h.child id c hc]
    omega

section Retains

theorem Retains.refl (p : Pattern) : p.Retains p := ⟨id, rfl, fun _ => rfl, fun _ => rfl⟩

theorem Retains.trans (h₁ : p.Retains p') (h₂ : p'.Retains p'') : p.Retains p'' where
  built h := h₂.built (h₁.built h)
  size := h₂.size.trans h₁.size
  children id := (h₂.children id).trans (h₁.children id)
  element id := (h₂.element id).trans (h₁.element id)

theorem Retains.has (h : p.Retains p') (hi : p.Has id) : p'.Has id := by
  rw [Has, h.size]
  exact hi

theorem Retains.graded (h : p.Retains p') (hg : p.Graded depth) : p'.Graded depth where
  root := hg.root
  child id c hc := hg.child id c (h.children id ▸ hc)
  bound id hi := by
    apply hg.bound id
    rw [Has, ← h.size]
    exact hi

theorem children_modifyNode (p : Pattern) (id : NodeId) {f : Node → Node}
    (hf : ∀ n, (f n).children = n.children) (k : NodeId) :
    (p.modifyNode id f).children k = p.children k := by
  rw [children, node_modifyNode]
  split
  · rename_i h
    rw [hf, ← h.1]
    rfl
  · rfl

theorem element_modifyNode (p : Pattern) (id : NodeId) {f : Node → Node}
    (hf : ∀ n, (f n).element = n.element) (k : NodeId) :
    (p.modifyNode id f).element k = p.element k := by
  rw [element, node_modifyNode]
  split
  · rename_i h
    rw [hf, ← h.1]
    rfl
  · rfl

theorem retains_setMode (hi : p.Has id) (mode : Mode) : p.Retains (p.setMode id mode) where
  built h := .setMode mode h hi
  size := size_modifyNode _
  children := children_modifyNode p id fun _ => rfl
  element := element_modifyNode p id fun _ => rfl

theorem retains_setExpr (hi : p.Has id) (e : Expr) : p.Retains (p.setExpr id e) where
  built h := .setExpr e h hi
  size := size_modifyNode _
  children := children_modifyNode p id fun _ => rfl
  element := element_modifyNode p id fun _ => rfl

/-- What a label defines is not in the tree. -/
theorem retains_setLabel (hi : p.Has id) (label : String) :
    p.Retains (p.setLabel id label).1 := by
  have hb : p.Built → (p.setLabel id label).1.Built := (.setLabel label · hi)
  have hc := children_modifyNode p id (f := fun n => { n with label := some label }) fun _ => rfl
  have he := element_modifyNode p id (f := fun n => { n with label := some label }) fun _ => rfl
  cases hk : (p.element id).isDefinition with
  | true =>
    simp only [setLabel, hk, if_true] at hb ⊢
    exact ⟨hb, size_modifyNode _, hc, he⟩
  | false =>
    simp only [setLabel, hk, Bool.false_eq_true, if_false] at hb ⊢
    exact ⟨hb, size_modifyNode _, hc, he⟩

end Retains

section AddNode

theorem size_addNode (p : Pattern) (parent : NodeId) (e : Element) :
    (p.addNode parent e).2.size = p.size + 1 := by
  rw [addNode, size_modifyNode]
  exact Array.size_push _

theorem node_pushed (n : Node) :
    ({ p with nodes := p.nodes.push n } : Pattern).node id =
      if id = ⟨p.size⟩ then n else p.node id := by
  by_cases hi : id.index = p.nodes.size
  · have hid : id = ⟨p.size⟩ := by
      cases id
      exact congrArg NodeId.mk hi
    simp [node, node?, hid, size]
  · have hid : id ≠ ⟨p.size⟩ := by
      rintro rfl
      exact hi rfl
    simp [node, node?, Array.getElem?_push, hi, hid]

theorem element_addNode (p : Pattern) (parent : NodeId) (e : Element) :
    (p.addNode parent e).2.element id = if id = ⟨p.size⟩ then e else p.element id := by
  have helement := element_modifyNode { p with nodes := p.nodes.push (.bare e (some parent)) } parent
    (f := fun n => { n with children := n.children.push ⟨p.size⟩ }) (fun _ => rfl) id
  apply helement.trans
  rw [element, node_pushed]
  split <;> rfl

/-- A new node has no children, and only its parent has got a new child. -/
theorem children_addNode (hp : p.Has parent) (h : c ∈ (p.addNode parent e).2.children id) :
    c ∈ p.children id ∨ id = parent ∧ c = ⟨p.size⟩ := by
  have hne : parent ≠ ⟨p.size⟩ := by
    rintro rfl
    exact Nat.lt_irrefl _ hp
  rw [addNode, children, node_modifyNode, node_pushed, node_pushed, if_neg hne] at h
  split at h
  · rename_i hid
    rw [Array.toList_push, List.mem_append, List.mem_singleton] at h
    rw [hid.1]
    exact h.imp_right fun hc => ⟨rfl, hc⟩
  · split at h
    · cases h
    · exact .inl h

/-- A new node stands one level below its parent. -/
theorem Graded.addNode (h : p.Graded depth) (hp : p.Closed) (hi : p.Has parent) (e : Element)
    (hd : depth parent < maxNestDepth) :
    (p.addNode parent e).2.Graded (Function.update depth ⟨p.size⟩ (depth parent + 1)) := by
  have hold {k : NodeId} (hk : p.Has k) :
      Function.update depth ⟨p.size⟩ (depth parent + 1) k = depth k := by
    apply Function.update_of_ne
    rintro rfl
    exact Nat.lt_irrefl _ hk
  constructor
  · exact (hold hp.root).trans h.root
  · intro id c hc
    rcases children_addNode hi hc with hc | ⟨rfl, rfl⟩
    · have hid : p.Has id := has_of_mem_children hc
      rw [hold hid, hold (hp.children id c hc), h.child id c hc]
    · rw [hold hi, Function.update_self]
  · intro id hid
    by_cases hn : id = ⟨p.size⟩
    · rw [hn, Function.update_self]
      exact hd
    · have hk : p.Has id := by
        rw [Has, size_addNode] at hid
        apply Nat.lt_of_le_of_ne (Nat.le_of_lt_succ hid)
        intro he
        apply hn
        cases id
        exact congrArg NodeId.mk he
      rw [hold hk]
      exact h.bound id hk

end AddNode

namespace Draft

variable {E : Element → Prop} {d d' : Draft} {outer : List (NodeId × String)} {u : Unit}

/-- Open elements stand in each other: each is a node, as deep as there are elements around it. -/
def Stacked (p : Pattern) (depth : NodeId → Nat) : List (NodeId × String) → Prop
  | [] => True
  | (id, _) :: outer => p.Has id ∧ depth id = outer.length ∧ Stacked p depth outer

/-- The pattern of a draft is graded by the elements that were open, and its elements are such as
`E` says. -/
structure Nested (E : Element → Prop) (depth : NodeId → Nat) (d : Draft) : Prop where
  built : d.pattern.Built
  graded : d.pattern.Graded depth
  elements : ∀ id, E (d.pattern.element id)
  stacked : Stacked d.pattern depth d.opened
  few : d.opened.length ≤ maxNestDepth

/-- The step has changed only what the draft says of its nodes. -/
structure Annotates (d d' : Draft) : Prop where
  pattern : d.pattern.Retains d'.pattern
  opened : d'.opened = d.opened

theorem Annotates.refl (d : Draft) : d.Annotates d := ⟨.refl _, rfl⟩

theorem Annotates.trans {d'' : Draft} (h₁ : d.Annotates d') (h₂ : d'.Annotates d'') :
    d.Annotates d'' :=
  ⟨h₁.pattern.trans h₂.pattern, h₂.opened.trans h₁.opened⟩

/-- Elements that are open stay so where nodes are kept with their depths. -/
theorem Stacked.mono {depth' : NodeId → Nat} (h : Stacked p depth outer)
    (hk : ∀ id, p.Has id → p'.Has id ∧ depth' id = depth id) : Stacked p' depth' outer := by
  induction outer with
  | nil => trivial
  | cons top outer ih =>
    obtain ⟨hi, hd, hs⟩ := h
    obtain ⟨hi', hd'⟩ := hk top.1 hi
    exact ⟨hi', hd'.trans hd, ih hs⟩

theorem Nested.annotate (h : d.Nested E depth) (ha : d.Annotates d') : d'.Nested E depth where
  built := ha.pattern.built h.built
  graded := ha.pattern.graded h.graded
  elements id := by
    rw [ha.pattern.element]
    exact h.elements id
  stacked := by
    rw [ha.opened]
    exact h.stacked.mono fun id hi => ⟨ha.pattern.has hi, rfl⟩
  few := by
    rw [ha.opened]
    exact h.few

section Annotate

theorem annotates_setLabel (hi : d.pattern.Has id) {label : String}
    (h : setLabel id label d = .ok u d') : d.Annotates d' := by
  cases h
  exact ⟨retains_setLabel hi label, rfl⟩

theorem annotates_setMode (hi : d.pattern.Has id) {value : String}
    (h : setMode id e value d = .ok u d') : d.Annotates d' := by
  unfold setMode at h
  cases hm : Mode.ofName? (Text.trim value) with
  | none =>
    rw [hm] at h
    cases h
  | some mode =>
    simp only [hm] at h
    split at h
    · cases h
      exact ⟨retains_setMode hi mode, rfl⟩
    · cases h

theorem annotates_applyAttribute (hi : d.pattern.Has id) {a : Markup.Attribute}
    (h : applyAttribute id e a d = .ok u d') : d.Annotates d' := by
  unfold applyAttribute at h
  obtain ⟨value, d₁, hv, h⟩ := ok_of_bind h
  cases hp : Markup.plainText? a.value with
  | none =>
    rw [hp] at hv
    cases hv
  | some text =>
    rw [hp] at hv
    cases hv
    split at h
    · exact annotates_setLabel hi h
    · split at h
      · exact annotates_setMode hi h
      · cases h
        exact .refl d

theorem annotates_forM (hi : d.pattern.Has id) {as : List Markup.Attribute}
    (h : as.forM (applyAttribute id e) d = .ok u d') : d.Annotates d' := by
  induction as generalizing d with
  | nil =>
    cases h
    exact .refl _
  | cons a as ih =>
    obtain ⟨_, d₁, ha, h⟩ := ok_of_bind h
    have hfirst := annotates_applyAttribute hi ha
    exact hfirst.trans (ih (hfirst.pattern.has hi) h)

theorem annotates_applyAttributes (hi : d.pattern.Has id) {raw : Markup.Bytes}
    (h : applyAttributes id e raw d = .ok u d') : d.Annotates d' := by
  obtain ⟨_, d₁, ha, h⟩ := ok_of_bind h
  split at h
  · cases h
  · cases h
    exact annotates_forM hi ha

theorem annotates_closeElement (hi : d.pattern.Has id) {text : String}
    (h : closeElement id text d = .ok u d') : d.Annotates d' := by
  obtain ⟨_, _, hget, h⟩ := ok_of_bind h
  cases hget
  simp only at h
  split at h
  · cases hx : Expr.parse (Text.trim text) with
    | error cause =>
      rw [hx] at h
      cases h
    | ok e =>
      rw [hx] at h
      cases h
      exact ⟨retains_setExpr hi e, rfl⟩
  · cases h
    exact .refl d

end Annotate

section Read

variable {tag : Markup.Tag} {event : Markup.Event} {events : List Markup.Event}

/-- A draft in which an element has begun that stands within all open ones. -/
structure Begins (E : Element → Prop) (depth : NodeId → Nat) (d : Draft) (id : NodeId)
    (d' : Draft) : Prop extends d'.Nested E depth where
  node : d'.pattern.Has id
  depth : depth id = d.opened.length
  within : d'.opened = d.opened

theorem Begins.annotate {d'' : Draft} (h : Begins E depth d id d') (ha : d'.Annotates d'') :
    Begins E depth d id d'' where
  toNested := h.toNested.annotate ha
  node := ha.pattern.has h.node
  depth := h.depth
  within := ha.opened.trans h.within

/-- A new child of the innermost open element. -/
theorem Nested.addNode (h : d.Nested E depth) (he : E e) {text : String}
    (ho : d.opened = (parent, text) :: outer) :
    ∃ depth', Begins E depth' d ⟨d.pattern.size⟩
      { d with pattern := (d.pattern.addNode parent e).2 } := by
  have hfew := h.few
  have hstacked := h.stacked
  rw [ho] at hstacked hfew
  obtain ⟨hi, hd, _⟩ := hstacked
  have hsize := size_addNode d.pattern parent e
  have hgraded := h.graded.addNode h.built.closed hi e (hd ▸ hfew)
  refine ⟨_, ⟨.addNode parent e h.built (Nat.le_of_lt hi), hgraded, ?_, ?_, h.few⟩, ?_, ?_, rfl⟩
  · intro id
    rw [element_addNode]
    split
    · exact he
    · exact h.elements id
  · apply h.stacked.mono
    intro id hid
    refine ⟨?_, Function.update_of_ne ?_ _ _⟩
    · rw [Has, hsize]
      exact Nat.lt_succ_of_lt hid
    · rintro rfl
      exact Nat.lt_irrefl _ hid
  · rw [Has, hsize]
    exact Nat.lt_succ_self _
  · rw [Function.update_self, hd, ho]
    rfl

/-- The root begins outside all elements, and any other element within one. -/
theorem openElement_cases (h : openElement tag d = .ok id d') :
    (Element.ofName? (Text.decodeLossy (Markup.localName tag.name)) = some .bulletml ∧
      d.opened = [] ∧ d.rooted = false ∧ id = root ∧ d' = { d with rooted := true }) ∨
    ∃ e parent text outer, Element.ofName? (Text.decodeLossy (Markup.localName tag.name)) = some e ∧
      e ≠ .bulletml ∧ d.opened = (parent, text) :: outer ∧ id = ⟨d.pattern.size⟩ ∧
      applyAttributes id e tag.attributes
        { d with pattern := (d.pattern.addNode parent e).2 } = .ok () d' := by
  obtain ⟨p, opened, rooted, notices⟩ := d
  unfold openElement at h
  simp only at h
  generalize Element.ofName? (Text.decodeLossy (Markup.localName tag.name)) = found at h ⊢
  cases found with
  | none => cases h
  | some e =>
    cases opened with
    | nil =>
      cases e with
      | bulletml =>
        cases rooted with
        | true => cases h
        | false =>
          cases h
          exact .inl ⟨rfl, rfl, rfl, rfl, rfl⟩
      | _ => cases h
    | cons top outer =>
      by_cases he : e = .bulletml
      · subst he
        cases h
      · have hadd : (do
            set (⟨(p.addNode top.1 e).2, top :: outer, rooted, notices⟩ : Draft)
            applyAttributes ⟨p.size⟩ e tag.attributes
            pure ⟨p.size⟩ : Reading NodeId) ⟨p, top :: outer, rooted, notices⟩ = .ok id d' := by
          cases e <;> first | exact absurd rfl he | exact h
        obtain ⟨_, _, hset, hadd⟩ := ok_of_bind hadd
        cases hset
        obtain ⟨_, _, ha, hadd⟩ := ok_of_bind hadd
        cases hadd
        exact .inr ⟨e, top.1, top.2, outer, rfl, he, rfl, rfl, ha⟩

theorem Nested.openElement (h : d.Nested E depth)
    (he : ∀ e, Element.ofName? (Text.decodeLossy (Markup.localName tag.name)) = some e → E e)
    (hr : openElement tag d = .ok id d') : ∃ depth', Begins E depth' d id d' := by
  rcases openElement_cases hr with
    ⟨_, ho, _, rfl, rfl⟩ | ⟨e, parent, text, outer, hn, _, ho, rfl, ha⟩
  · refine ⟨depth, ⟨h.built, h.graded, h.elements, h.stacked, h.few⟩, h.built.closed.root, ?_, rfl⟩
    rw [h.graded.root, ho]
    rfl
  · obtain ⟨depth', hb⟩ := h.addNode (he e hn) ho
    exact ⟨depth', hb.annotate (annotates_applyAttributes hb.node ha)⟩

theorem Nested.appendText (h : d.Nested E depth) {text : String}
    (hr : appendText text d = .ok u d') : d'.Nested E depth := by
  obtain ⟨p, opened, rooted, notices⟩ := d
  cases hr
  cases opened with
  | nil => exact h
  | cons top outer => exact ⟨h.built, h.graded, h.elements, h.stacked, h.few⟩

/-- Every event keeps what is known of the draft. -/
theorem Nested.read (h : d.Nested E depth) (he : ∀ e, event.element? = some e → E e)
    (hr : read event d = .ok u d') : ∃ depth', d'.Nested E depth' := by
  cases event with
  | opening tag =>
    obtain ⟨_, _, hget, hr⟩ := ok_of_bind hr
    cases hget
    simp only at hr
    split at hr
    · cases hr
    · rename_i hfew
      obtain ⟨id, d₁, hopen, hr⟩ := ok_of_bind hr
      cases hr
      obtain ⟨depth', hb⟩ := h.openElement he hopen
      refine ⟨depth', hb.built, hb.graded, hb.elements, ⟨hb.node, ?_, hb.stacked⟩, ?_⟩
      · rw [hb.depth, hb.within]
      · rw [List.length_cons, hb.within]
        exact Nat.lt_of_not_le hfew
  | empty tag =>
    obtain ⟨id, d₁, hopen, hr⟩ := ok_of_bind hr
    obtain ⟨depth', hb⟩ := h.openElement he hopen
    exact ⟨depth', hb.toNested.annotate (annotates_closeElement hb.node hr)⟩
  | text raw =>
    obtain ⟨_, _, hget, hr⟩ := ok_of_bind hr
    cases hget
    split at hr
    · obtain ⟨text, d₁, hm, hr⟩ := ok_of_bind hr
      cases hp : Markup.plainText? raw with
      | none =>
        rw [hp] at hm
        cases hm
      | some text =>
        rw [hp] at hm
        cases hm
        exact ⟨depth, h.appendText hr⟩
    · cases hr
      exact ⟨depth, h⟩
  | verbatim raw => exact ⟨depth, h.appendText hr⟩
  | closing =>
    obtain ⟨_, _, hget, hr⟩ := ok_of_bind hr
    cases hget
    obtain ⟨p, opened, rooted, notices⟩ := d
    cases opened with
    | nil =>
      cases hr
      exact ⟨depth, h⟩
    | cons top outer =>
      obtain ⟨_, _, hset, hr⟩ := ok_of_bind hr
      cases hset
      obtain ⟨hi, _, hs⟩ := h.stacked
      have hpop : (⟨p, outer, rooted, notices⟩ : Draft).Nested E depth :=
        ⟨h.built, h.graded, h.elements, hs, Nat.le_of_succ_le h.few⟩
      exact ⟨depth, hpop.annotate (annotates_closeElement hi hr)⟩

theorem Nested.reads (h : d.Nested E depth)
    (he : ∀ event ∈ events, ∀ e, event.element? = some e → E e)
    (hr : events.forM Draft.read d = .ok u d') : ∃ depth', d'.Nested E depth' := by
  induction events generalizing d depth with
  | nil =>
    cases hr
    exact ⟨depth, h⟩
  | cons event events ih =>
    obtain ⟨_, d₁, hfirst, hr⟩ := ok_of_bind hr
    obtain ⟨depth', h₁⟩ := h.read (he event List.mem_cons_self) hfirst
    exact ih h₁ (fun event hm => he event (List.mem_cons_of_mem _ hm)) hr

end Read

theorem nested_ofName (name : String) (he : E .bulletml) :
    (⟨ofName name, [], false, #[]⟩ : Draft).Nested E fun _ => 0 := by
  have hnode (id : NodeId) : (ofName name).node id = .bare .bulletml none := by
    rcases id with ⟨_ | i⟩
    · rfl
    · simp [node, node?, ofName]
  refine ⟨.ofName name, ⟨rfl, ?_, fun _ _ => Nat.zero_le _⟩, ?_, trivial, Nat.zero_le _⟩
  · intro id c hc
    rw [children, hnode] at hc
    cases hc
  · intro id
    rw [element, hnode]
    exact he

end Draft

/-- A document gives a pattern if all of it is read, it has a root, and the pattern passes its
check. -/
theorem ofDocument_eq_ok {name : String} {bs : Markup.Bytes} {notices : Array Notice} :
    ofDocument name bs = (.ok p, notices) ↔
      ∃ d, (Markup.scan bs).events.forM Draft.read ⟨ofName name, [], false, #[]⟩ = .ok () d ∧
        (Markup.scan bs).complete = true ∧ d.rooted = true ∧ p.validate = .ok () ∧
        d.pattern = p ∧ d.notices = notices := by
  constructor
  · intro h
    unfold ofDocument at h
    cases hd : Draft.readDocument bs ⟨ofName name, [], false, #[]⟩ with
    | error e d =>
      rw [hd] at h
      cases h
    | ok u d =>
      rw [hd] at h
      cases h
      obtain ⟨_, d₁, hread, hd⟩ := ok_of_bind hd
      simp only at hd
      split at hd
      · cases hd
      · rename_i hcomplete
        obtain ⟨_, _, hget, hd⟩ := ok_of_bind hd
        cases hget
        split at hd
        · cases hd
        · rename_i hrooted
          have hv : d = d₁ ∧ d₁.pattern.validate = .ok () := by
            cases hv : d₁.pattern.validate with
            | error e =>
              rw [hv] at hd
              cases hd
            | ok u =>
              rw [hv] at hd
              cases hd
              exact ⟨rfl, rfl⟩
          obtain ⟨rfl, hv⟩ := hv
          exact ⟨d, hread, by simpa using hcomplete, by simpa using hrooted, hv, rfl, rfl⟩
  · rintro ⟨d, hread, hcomplete, hrooted, hvalid, rfl, rfl⟩
    have hdoc : Draft.readDocument bs ⟨ofName name, [], false, #[]⟩ = .ok () d := by
      refine (bind_of_ok hread).trans ?_
      simp only [hcomplete, Bool.not_true, Bool.false_eq_true, if_false]
      have hget : (get : Reading Draft) d = .ok d d := rfl
      refine (bind_of_ok hget).trans ?_
      simp only [hrooted, Bool.not_true, Bool.false_eq_true, if_false, hvalid]
      rfl
    rw [ofDocument, hdoc]

/-- What is known of the pattern of a document: it was put together node by node, it passes its
check, its elements are a root and those of the document, and no node has more levels below it than
elements may be nested. -/
theorem ofDocument_ok {name : String} {bs : Markup.Bytes} {notices : Array Notice}
    (h : ofDocument name bs = (.ok p, notices)) {E : Element → Prop} (hr : E .bulletml)
    (he : ∀ event ∈ (Markup.scan bs).events, ∀ e, event.element? = some e → E e) :
    p.Built ∧ p.validate = .ok () ∧ (∀ id, E (p.element id)) ∧
      ∀ id, p.Has id → p.Shallow (maxNestDepth + 1) id := by
  obtain ⟨d, hread, -, -, hv, rfl, -⟩ := ofDocument_eq_ok.1 h
  obtain ⟨depth, hn⟩ := (Draft.nested_ofName name hr).reads he hread
  refine ⟨hn.built, hv, hn.elements, ?_⟩
  intro id hi
  exact hn.graded.shallow hn.built.closed hi (Nat.lt_of_lt_of_le (Nat.lt_succ_self _)
    (Nat.le_add_left _ _))

end Pattern
end Barrage

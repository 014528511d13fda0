import Barrage.Proofs.Outline

namespace Barrage

open Markup

/-- What an attribute makes of a node. -/
def Node.annotate (n : Node) (a : Attribute) : Node :=
  match plainText? a.value with
  | none => n
  | some value =>
    if localName a.key == ascii "label" then { n with label := some value }
    else if localName a.key == ascii "type" then { n with mode := Mode.ofName? (Text.trim value) }
    else n

/-- Attributes have a say in the label and the mode of a node alone. -/
theorem Node.annotate_keeps (n : Node) (as : List Attribute) :
    ∃ label mode, as.foldl annotate n = { n with label := label, mode := mode } := by
  induction as generalizing n with
  | nil => exact ⟨n.label, n.mode, rfl⟩
  | cons a as ih =>
    have hfirst : ∃ label mode, n.annotate a = { n with label := label, mode := mode } := by
      unfold annotate
      split
      · exact ⟨n.label, n.mode, rfl⟩
      · split
        · exact ⟨_, n.mode, rfl⟩
        · split
          · exact ⟨n.label, _, rfl⟩
          · exact ⟨n.label, n.mode, rfl⟩
    obtain ⟨label, mode, hfirst⟩ := hfirst
    obtain ⟨label', mode', hrest⟩ := ih (n.annotate a)
    refine ⟨label', mode', ?_⟩
    rw [List.foldl_cons, hrest, hfirst]

/-- The value of an element with the given text. -/
def Element.value? (e : Element) (text : String) : Option Expr :=
  if e.carriesValue && !(Text.trim text).isEmpty then (Expr.parse (Text.trim text)).toOption
  else none

namespace Markup

variable {events : List Event} {event : Event} {x : Entry} {k : Nat} {e : Element}

/-- The value of an element comes with its end tag. -/
def valueOf (events : List Event) (k : Nat) (e : Element) : Option Expr :=
  if isClosed events k then e.value? (textOf events k) else none

/-- The node of an element when it begins. The root's own attributes concern nobody. -/
def Entry.start (x : Entry) : Node :=
  match x.parent with
  | none => .bare .bulletml none
  | some parent =>
    (attributes x.tag.attributes).attributes.foldl .annotate
      (.bare (x.tag.element?.getD .bulletml) (some ⟨parent⟩))

/-- The node of an element with the value that it has got and the elements that stand in it. -/
def Entry.node (events : List Event) (x : Entry) : Node :=
  { x.start with
    expr := valueOf events x.number x.start.element
    children := ((childrenOf events x.number).map NodeId.mk).toArray }

/-- The element can stand where it does and takes the modes that its tag gives it. -/
structure Entry.Apt (x : Entry) : Prop where
  element : x.tag.element? = some x.start.element
  first : x.number = 0 ↔ x.parent = none
  bulletml : x.start.element = .bulletml ↔ x.parent = none
  modes : ∀ m, x.start.mode = some m → x.start.element.accepts m = true

/-- An element begins with neither a value nor children, under the element that it stands in. -/
theorem Entry.start_eq (x : Entry) :
    x.start = { x.start with expr := none, parent := x.parent.map .mk, children := #[] } := by
  unfold start
  cases x.parent with
  | none => rfl
  | some parent =>
    obtain ⟨label, mode, h⟩ := Node.annotate_keeps
      (.bare (x.tag.element?.getD .bulletml) (some ⟨parent⟩)) (attributes x.tag.attributes).attributes
    simp only [h]
    rfl

section Snoc

/-- Text that comes before its end tag changes no value yet, and none comes behind it. -/
theorem valueOf_snoc : valueOf (events ++ [event]) k e =
    if event = .closing ∧ (place events).within.head? = some k then e.value? (textOf events k)
    else valueOf events k e := by
  by_cases hk : (place events).within.head? = some k
  · have hopen : isClosed events k = false := by
      rw [← Bool.not_eq_true]
      intro hc
      exact ((sound_place events).closed k hc).2 (List.mem_of_mem_head? hk)
    by_cases he : event = .closing
    · simp [valueOf, isClosed_snoc, textOf_snoc, he, hk, Event.text?]
    · simp [valueOf, isClosed_snoc, hopen, he]
  · simp [valueOf, isClosed_snoc, textOf_snoc, hk]

/-- An element has no value before it begins. -/
theorem valueOf_of_le (h : (place events).begun ≤ k) : valueOf events k e = none := by
  rw [valueOf, if_neg]
  intro hc
  exact Nat.not_lt.2 h ((sound_place events).closed k hc).1

/-- An element that begins is one more in the element around it. -/
theorem Entry.node_of_tag (x : Entry) (ht : event.tag?.isSome = true) :
    x.node (events ++ [event]) =
      if (place events).within.head? = some x.number then
        { x.node events with children := (x.node events).children.push ⟨(place events).begun⟩ }
      else x.node events := by
  have he : event ≠ .closing := by
    rintro rfl
    cases ht
  rw [node, valueOf_snoc, childrenOf_snoc, ht, if_neg (he ·.1)]
  by_cases hk : (place events).within.head? = some x.number <;> simp [node, hk]

theorem Entry.node_of_new (ht : event.tag?.isSome = true) (hx : x.number = (place events).begun) :
    x.node (events ++ [event]) = x.start := by
  have hk : (place events).within.head? ≠ some x.number := by
    intro hk
    have hlt := (sound_place events).begun _ (List.mem_of_mem_head? hk)
    exact Nat.ne_of_lt hlt hx
  rw [node_of_tag x ht, if_neg hk, node, valueOf_of_le hx.ge, childrenOf_of_le hx.ge, x.start_eq]
  rfl

/-- An end tag gives the innermost element its value. -/
theorem Entry.node_of_closing (x : Entry) : x.node (events ++ [.closing]) =
    if (place events).within.head? = some x.number then
      { x.node events with expr := x.start.element.value? (textOf events x.number) }
    else x.node events := by
  rw [node, valueOf_snoc, childrenOf_snoc]
  by_cases hk : (place events).within.head? = some x.number <;> simp [node, hk, Event.tag?]

theorem Entry.node_of_text (x : Entry) (ht : event.tag? = none) (hc : event ≠ .closing) :
    x.node (events ++ [event]) = x.node events := by
  rw [node, valueOf_snoc, childrenOf_snoc, ht, if_neg (hc ·.1)]
  simp [node]

/-- The elements that are open, innermost first, with their text so far. -/
def stack (events : List Event) : List (NodeId × String) :=
  (place events).within.map fun k => (⟨k⟩, textOf events k)

theorem textOf_of_silent {event : Event} (ht : event.text? = none) (k : Nat) :
    textOf (events ++ [event]) k = textOf events k := by
  rw [textOf_snoc, ht, Option.getD_none, String.append_empty, ite_self]

theorem stack_of_opening (tag : Tag) :
    stack (events ++ [.opening tag]) = (⟨(place events).begun⟩, "") :: stack events := by
  have hsilent : (Event.opening tag).text? = none := rfl
  simp only [stack, place_snoc, Place.next, List.map_cons, textOf_of_silent hsilent,
    textOf_of_le le_rfl]

theorem stack_of_empty (tag : Tag) : stack (events ++ [.empty tag]) = stack events := by
  have hsilent : (Event.empty tag).text? = none := rfl
  simp only [stack, place_snoc, Place.next, textOf_of_silent hsilent]

theorem stack_of_closing : stack (events ++ [.closing]) = (stack events).tail := by
  have hsilent : Event.closing.text? = none := rfl
  simp only [stack, place_snoc, Place.next, textOf_of_silent hsilent, List.map_tail]

theorem stack_of_outside (hs : stack events = []) (ht : event.tag? = none) :
    stack (events ++ [event]) = [] := by
  have hw : (place events).within = [] := List.map_eq_nil_iff.1 hs
  rw [stack, List.map_eq_nil_iff, place_snoc]
  cases event <;> first | exact hw | exact congrArg List.tail hw | cases ht

theorem stack_of_inside {id : NodeId} {before text : String} {outer : List (NodeId × String)}
    (hs : stack events = (id, before) :: outer) (hp : (place events).next event = place events)
    (ht : event.text? = some text) :
    stack (events ++ [event]) = (id, before ++ text) :: outer := by
  obtain ⟨k, rest, hw, hk, hrest⟩ := List.map_eq_cons_iff.1 hs
  have hnested := (sound_place events).nested
  rw [hw, List.pairwise_cons] at hnested
  cases hk
  rw [stack, place_snoc, hp, hw, List.map_cons, textOf_snoc, hw, List.head?_cons, if_pos rfl, ht,
    ← hrest]
  refine congrArg _ (List.map_congr_left ?_)
  intro j hj
  rw [textOf_snoc, hw, List.head?_cons, if_neg]
  exact fun heq => Nat.ne_of_gt (hnested.1 j hj) (Option.some.inj heq)

end Snoc
end Markup

namespace Pattern

theorem node_addNode {p : Pattern} {parent : NodeId} (hp : p.Has parent) (e : Element)
    (k : NodeId) : (p.addNode parent e).2.node k =
      if k = ⟨p.size⟩ then .bare e (some parent)
      else if k = parent then
        { p.node parent with children := (p.node parent).children.push ⟨p.size⟩ }
      else p.node k := by
  have hne : parent ≠ ⟨p.size⟩ := by
    rintro rfl
    exact Nat.lt_irrefl _ hp
  have hin : Has { p with nodes := p.nodes.push (.bare e (some parent)) } parent := by
    rw [Has, size, Array.size_push]
    exact Nat.lt_succ_of_lt hp
  rw [addNode, node_modifyNode, node_pushed, node_pushed, if_neg hne]
  by_cases hk : k = parent
  · rw [if_pos ⟨hk, hin⟩, if_neg (hk ▸ hne), if_pos hk]
  · rw [if_neg (hk ·.1), if_neg hk]

theorem node_revised {p : Pattern} {id : NodeId} (hi : p.Has id) (f : Node → Node) (k : NodeId) :
    (p.modifyNode id f).node k = if k = id then f (p.node id) else p.node k := by
  rw [node_modifyNode]
  by_cases hk : k = id
  · rw [if_pos ⟨hk, hi⟩, if_pos hk]
  · rw [if_neg (hk ·.1), if_neg hk]

namespace Draft

variable {d d' d'' : Draft} {id : NodeId} {e : Element} {f g : Node → Node} {u : Unit}
  {events : List Event} {event : Event} {tag : Tag} {text : String}

/-- The step has changed one node of the draft. -/
structure Revises (d d' : Draft) (id : NodeId) (f : Node → Node) : Prop where
  size : d'.pattern.size = d.pattern.size
  node : ∀ k, d'.pattern.node k = if k = id then f (d.pattern.node id) else d.pattern.node k
  opened : d'.opened = d.opened
  rooted : d'.rooted = d.rooted

section Revises

theorem Revises.refl (d : Draft) (id : NodeId) (hf : f (d.pattern.node id) = d.pattern.node id) :
    d.Revises d id f where
  size := rfl
  node k := by
    split
    · rename_i hk
      rw [hf, hk]
    · rfl
  opened := rfl
  rooted := rfl

theorem Revises.trans (h₁ : d.Revises d' id f) (h₂ : d'.Revises d'' id g) :
    d.Revises d'' id (g ∘ f) where
  size := h₂.size.trans h₁.size
  node k := by
    rw [h₂.node, h₁.node, h₁.node, if_pos rfl]
    split <;> rfl
  opened := h₂.opened.trans h₁.opened
  rooted := h₂.rooted.trans h₁.rooted

theorem revises_setLabel (hi : d.pattern.Has id) {label : String}
    (h : setLabel id label d = .ok u d') :
    d.Revises d' id fun n => { n with label := some label } := by
  cases h
  have hnode := node_revised hi fun n => { n with label := some label }
  cases hk : (d.pattern.element id).isDefinition with
  | true =>
    simp only [Pattern.setLabel, hk, if_true]
    exact ⟨size_modifyNode _, hnode, rfl, rfl⟩
  | false =>
    simp only [Pattern.setLabel, hk, Bool.false_eq_true, if_false]
    exact ⟨size_modifyNode _, hnode, rfl, rfl⟩

theorem revises_setMode (hi : d.pattern.Has id) {value : String}
    (h : setMode id e value d = .ok u d') : ∃ m, Mode.ofName? (Text.trim value) = some m ∧
      e.accepts m = true ∧ d.Revises d' id fun n => { n with mode := some m } := by
  unfold setMode at h
  cases hm : Mode.ofName? (Text.trim value) with
  | none =>
    rw [hm] at h
    cases h
  | some m =>
    simp only [hm] at h
    split at h
    · rename_i ha
      cases h
      exact ⟨m, rfl, ha, size_modifyNode _, node_revised hi _, rfl, rfl⟩
    · cases h

/-- An attribute is read as it is, and a mode that it gives is one that the element takes. -/
theorem revises_applyAttribute (hi : d.pattern.Has id) {a : Attribute}
    (h : applyAttribute id e a d = .ok u d') : d.Revises d' id (·.annotate a) ∧
      ∀ n m, (Node.annotate n a).mode = some m → n.mode = some m ∨ e.accepts m = true := by
  unfold applyAttribute at h
  obtain ⟨value, d₁, hv, h⟩ := ok_of_bind h
  cases hp : plainText? a.value with
  | none =>
    rw [hp] at hv
    cases hv
  | some text =>
    rw [hp] at hv
    cases hv
    unfold Node.annotate
    simp only [hp]
    split at h
    · rename_i hlabel
      simp only [hlabel, if_true]
      exact ⟨revises_setLabel hi h, fun _ _ => .inl⟩
    · rename_i hlabel
      simp only [hlabel]
      split at h
      · rename_i htype
        obtain ⟨m, hm, ha, hr⟩ := revises_setMode hi h
        simp only [htype, hm]
        refine ⟨hr, ?_⟩
        rintro n m' hm'
        cases hm'
        exact .inr ha
      · rename_i htype
        cases h
        simp only [htype]
        exact ⟨.refl _ _ rfl, fun _ _ => .inl⟩

theorem revises_forM (hi : d.pattern.Has id) {as : List Attribute}
    (h : as.forM (applyAttribute id e) d = .ok u d') : d.Revises d' id (as.foldl .annotate) ∧
      ∀ n m, (as.foldl Node.annotate n).mode = some m → n.mode = some m ∨ e.accepts m = true := by
  induction as generalizing d with
  | nil =>
    cases h
    exact ⟨.refl _ _ rfl, fun _ _ => .inl⟩
  | cons a as ih =>
    obtain ⟨_, d₁, ha, h⟩ := ok_of_bind h
    obtain ⟨hfirst, hmode⟩ := revises_applyAttribute hi ha
    obtain ⟨hrest, hmodes⟩ := ih (by rw [Has, hfirst.size]; exact hi) h
    refine ⟨hfirst.trans hrest, ?_⟩
    intro n m hm
    exact (hmodes _ m hm).elim (hmode n m) .inr

theorem revises_applyAttributes (hi : d.pattern.Has id) {raw : Bytes}
    (h : applyAttributes id e raw d = .ok u d') :
    d.Revises d' id ((attributes raw).attributes.foldl .annotate) ∧
      ∀ n m, ((attributes raw).attributes.foldl Node.annotate n).mode = some m →
        n.mode = some m ∨ e.accepts m = true := by
  obtain ⟨_, d₁, ha, h⟩ := ok_of_bind h
  split at h
  · cases h
  · cases h
    exact revises_forM hi ha

/-- The end of an element gives it its value. -/
theorem revises_closeElement (hi : d.pattern.Has id) {text : String}
    (hn : (d.pattern.node id).expr = none) (h : closeElement id text d = .ok u d') :
    d.Revises d' id fun n => { n with expr := (d.pattern.element id).value? text } := by
  obtain ⟨_, _, hget, h⟩ := ok_of_bind h
  cases hget
  simp only at h
  unfold Element.value?
  split at h
  · rename_i hv
    cases hx : Expr.parse (Text.trim text) with
    | error cause =>
      rw [hx] at h
      cases h
    | ok x =>
      rw [hx] at h
      cases h
      rw [if_pos hv]
      exact ⟨size_modifyNode _, node_revised hi _, rfl, rfl⟩
  · rename_i hv
    cases h
    rw [if_neg hv, ← hn]
    exact .refl d id rfl

end Revises

/-- The nodes of the draft are the elements that have begun. -/
structure Lists (events : List Event) (d : Draft) : Prop where
  size : d.pattern.size = max 1 (place events).begun
  rooted : d.rooted = decide (0 < (place events).begun)
  blank : (place events).begun = 0 → d.pattern.node root = .bare .bulletml none
  nodes : ∀ x ∈ entries events, d.pattern.node ⟨x.number⟩ = x.node events
  apt : ∀ x ∈ entries events, x.Apt

/-- The draft is what the events make of it. -/
structure Traces (events : List Event) (d : Draft) : Prop extends d.Lists events where
  opened : d.opened = stack events

section Read

/-- The first element is the root. -/
theorem Lists.root (h : d.Lists events) (hw : (place events).within = []) (hr : d.rooted = false)
    (ht : event.tag? = some tag) (he : tag.element? = some .bulletml) :
    (place events).begun = 0 ∧ Lists (events ++ [event]) { d with rooted := true } := by
  have hbegun : (place events).begun = 0 := by
    have hroot := h.rooted
    rw [hr, eq_comm, decide_eq_false_iff_not] at hroot
    exact Nat.eq_zero_of_not_pos hroot
  have hentries : entries events = [] := by
    have hnumbers := (sound_place events).numbers
    rw [hbegun] at hnumbers
    exact List.map_eq_nil_iff.1 hnumbers
  have hnew : entries (events ++ [event]) = [⟨0, none, tag⟩] := by
    rw [entries_of_tag ht, hentries, hbegun, hw]
    rfl
  refine ⟨hbegun, ?_, ?_, ?_, ?_, ?_⟩
  · rw [begun_of_tag ht, h.size, hbegun]
    rfl
  · rw [begun_of_tag ht]
    simp
  · rw [begun_of_tag ht]
    exact fun h => absurd h (Nat.succ_ne_zero _)
  · intro x hx
    rw [hnew, List.mem_singleton] at hx
    subst hx
    rw [Entry.node_of_new (by rw [ht]; rfl) hbegun.symm]
    exact h.blank hbegun
  · intro x hx
    rw [hnew, List.mem_singleton] at hx
    subst hx
    exact ⟨he, iff_of_true rfl rfl, iff_of_true rfl rfl, nofun⟩

/-- Every other element is a new child of the innermost one that is open. -/
theorem Lists.child (h : d.Lists events) {k : Nat}
    (hk : (place events).within.head? = some k) (ht : event.tag? = some tag)
    (he : tag.element? = some e) (hne : e ≠ .bulletml)
    (hr : applyAttributes ⟨d.pattern.size⟩ e tag.attributes
      { d with pattern := (d.pattern.addNode ⟨k⟩ e).2 } = .ok u d') :
    d.pattern.size = (place events).begun ∧ d'.opened = d.opened ∧
      d'.Lists (events ++ [event]) := by
  have hlt := (sound_place events).begun k (List.mem_of_mem_head? hk)
  have hsize : d.pattern.size = (place events).begun := by
    rw [h.size]
    exact max_eq_right (Nat.one_le_of_lt hlt)
  have hparent : d.pattern.Has ⟨k⟩ := by
    rw [Has, hsize]
    exact hlt
  have hsize' := size_addNode d.pattern ⟨k⟩ e
  obtain ⟨hrev, hmode⟩ := revises_applyAttributes (by rw [Has, hsize']; exact Nat.lt_succ_self _) hr
  have hnode := node_addNode hparent e
  have hstart : (⟨(place events).begun, some k, tag⟩ : Markup.Entry).start =
      (attributes tag.attributes).attributes.foldl .annotate (.bare e (some ⟨k⟩)) := by
    simp only [Entry.start, he, Option.getD_some]
  have helement : (⟨(place events).begun, some k, tag⟩ : Markup.Entry).start.element = e := by
    obtain ⟨label, mode, hkeep⟩ := Node.annotate_keeps (.bare e (some ⟨k⟩))
      (attributes tag.attributes).attributes
    rw [hstart, hkeep]
    rfl
  have hpos : 0 < (place events).begun := Nat.zero_lt_of_lt hlt
  refine ⟨hsize, hrev.opened, ?_, ?_, ?_, ?_, ?_⟩
  · rw [begun_of_tag ht, hrev.size, hsize', hsize]
    exact (max_eq_right (Nat.le_add_left _ _)).symm
  · rw [begun_of_tag ht, hrev.rooted, h.rooted]
    simp [hpos]
  · rw [begun_of_tag ht]
    exact fun h => absurd h (Nat.succ_ne_zero _)
  · intro x hx
    rw [entries_of_tag ht, hk, List.mem_append, List.mem_singleton] at hx
    rcases hx with hx | rfl
    · have hold : (⟨x.number⟩ : NodeId) ≠ ⟨d.pattern.size⟩ := by
        rw [hsize]
        intro heq
        exact Nat.ne_of_lt (Entry.number_lt hx) (congrArg NodeId.index heq)
      rw [hrev.node, if_neg hold, hnode, if_neg hold, x.node_of_tag (by rw [ht]; rfl), hk]
      by_cases hxk : k = x.number
      · rw [if_pos (congrArg NodeId.mk hxk.symm), if_pos (congrArg some hxk), hxk, h.nodes x hx,
          hsize]
      · rw [if_neg fun heq => hxk (congrArg NodeId.index heq).symm,
          if_neg fun heq => hxk (Option.some.inj heq), h.nodes x hx]
    · rw [Entry.node_of_new (by rw [ht]; rfl) rfl, hstart, hrev.node, hsize, if_pos rfl, hnode,
        hsize, if_pos rfl]
  · intro x hx
    rw [entries_of_tag ht, hk, List.mem_append, List.mem_singleton] at hx
    rcases hx with hx | rfl
    · exact h.apt x hx
    · refine ⟨by rw [helement]; exact he, ?_, ?_, ?_⟩
      · exact iff_of_false (Nat.ne_of_gt hpos) (Option.some_ne_none k)
      · exact iff_of_false (by rw [helement]; exact hne) (Option.some_ne_none k)
      · intro m hm
        rw [helement]
        rw [hstart] at hm
        exact (hmode _ m hm).resolve_left (Option.some_ne_none m).symm

/-- An element begins at the place of its number. -/
theorem Traces.openElement (h : d.Traces events) (ht : event.tag? = some tag)
    (hr : openElement tag d = .ok id d') : id = ⟨(place events).begun⟩ ∧ d'.opened = d.opened ∧
      d'.Lists (events ++ [event]) := by
  have hopened := h.opened
  rcases openElement_cases hr with
    ⟨he, ho, hroot, rfl, rfl⟩ | ⟨e, parent, text, outer, he, hne, ho, rfl, ha⟩
  · rw [ho, eq_comm] at hopened
    obtain ⟨hbegun, hl⟩ := h.toLists.root (List.map_eq_nil_iff.1 hopened) hroot ht he
    exact ⟨by rw [hbegun]; rfl, rfl, hl⟩
  · rw [ho] at hopened
    obtain ⟨k, rest, hw, hk, _⟩ := List.map_eq_cons_iff.1 hopened.symm
    cases hk
    obtain ⟨hsize, hl⟩ := h.toLists.child (by rw [hw]; rfl) ht he hne ha
    exact ⟨congrArg NodeId.mk hsize, hl⟩

theorem closeElement_empty : closeElement id "" d = .ok () d := by
  have hblank : (Text.trim "").isEmpty = true := by decide
  simp only [closeElement, hblank, Bool.not_true, Bool.and_false]
  rfl

/-- What is listed stays so behind an event that has no say in the nodes. -/
theorem Lists.of_text (h : d.Lists events) (ht : event.tag? = none) (hc : event ≠ .closing) :
    d.Lists (events ++ [event]) := by
  have hbegun : (place (events ++ [event])).begun = (place events).begun := by
    rw [place_snoc]
    cases event <;> first | rfl | cases ht
  have hentries : entries (events ++ [event]) = entries events := by
    rw [entries_snoc, ht]
    exact List.append_nil _
  refine ⟨hbegun ▸ h.size, hbegun ▸ h.rooted, hbegun ▸ h.blank, ?_, hentries ▸ h.apt⟩
  intro x hx
  rw [x.node_of_text ht hc]
  exact h.nodes x (hentries ▸ hx)

/-- Text joins that of the innermost element. -/
theorem Traces.appendText (h : d.Traces events) (ht : event.tag? = none) (hc : event ≠ .closing)
    (hx : event.text? = some text) (hr : appendText text d = .ok u d') :
    d'.Traces (events ++ [event]) := by
  have hplace : (place events).next event = place events := by
    cases event <;> first | rfl | exact absurd rfl hc | cases ht
  have hlists := h.toLists.of_text ht hc
  have hopened := h.opened
  obtain ⟨p, opened, rooted, notices⟩ := d
  cases hr
  simp only at hopened
  cases opened with
  | nil => exact ⟨hlists, (stack_of_outside hopened.symm ht).symm⟩
  | cons top outer =>
    exact ⟨⟨hlists.size, hlists.rooted, hlists.blank, hlists.nodes, hlists.apt⟩,
      (stack_of_inside hopened.symm hplace hx).symm⟩

/-- An end tag gives the innermost element its value and leaves it. -/
theorem Traces.closing (h : d.Traces events) (hr : Draft.read .closing d = .ok u d') :
    d'.Traces (events ++ [.closing]) := by
  have hentries : entries (events ++ [.closing]) = entries events := by
    rw [entries_snoc]
    exact List.append_nil _
  have hbegun : (place (events ++ [.closing])).begun = (place events).begun := by
    rw [place_snoc]
    rfl
  obtain ⟨hl, hopened⟩ := h
  obtain ⟨_, _, hget, hr⟩ := ok_of_bind hr
  cases hget
  obtain ⟨p, opened, rooted, notices⟩ := d
  cases opened with
  | nil =>
    cases hr
    have hw : (place events).within = [] := List.map_eq_nil_iff.1 hopened.symm
    refine ⟨⟨hbegun ▸ hl.size, hbegun ▸ hl.rooted, hbegun ▸ hl.blank, ?_, hentries ▸ hl.apt⟩, ?_⟩
    · intro x hx
      rw [x.node_of_closing, hw, if_neg nofun]
      exact hl.nodes x (hentries ▸ hx)
    · rw [stack_of_closing, ← hopened]
      rfl
  | cons top outer =>
    obtain ⟨_, _, hset, hr⟩ := ok_of_bind hr
    cases hset
    obtain ⟨k, rest, hw, hk, hrest⟩ := List.map_eq_cons_iff.1 hopened.symm
    cases hk
    have hlt : k < (place events).begun := (sound_place events).begun k (by simp [hw])
    have hnode (x : Markup.Entry) (hx : x ∈ entries events) (hk : x.number = k) :
        p.node ⟨k⟩ = x.node events := hk ▸ hl.nodes x hx
    have hvalue : (p.node ⟨k⟩).expr = none := by
      obtain ⟨x, hx, hk⟩ : ∃ x ∈ entries events, x.number = k := by
        rw [← List.mem_map, (sound_place events).numbers]
        exact List.mem_range.2 hlt
      rw [hnode x hx hk, Entry.node, valueOf, if_neg]
      intro hc
      exact ((sound_place events).closed _ hc).2 (by simp [hw, hk])
    have hin : p.Has ⟨k⟩ := by
      rw [Has]
      exact lt_of_lt_of_le hlt (hl.size ▸ le_max_right _ _)
    have hrev := revises_closeElement (d := ⟨p, outer, rooted, notices⟩) hin hvalue hr
    refine ⟨⟨?_, ?_, ?_, ?_, hentries ▸ hl.apt⟩, ?_⟩
    · rw [hrev.size, hbegun]
      exact hl.size
    · rw [hrev.rooted, hbegun]
      exact hl.rooted
    · intro hzero
      omega
    · intro x hx
      rw [hentries] at hx
      rw [hrev.node, x.node_of_closing, hw, List.head?_cons]
      by_cases hk : x.number = k
      · rw [if_pos (congrArg NodeId.mk hk), if_pos (congrArg some hk.symm), element,
          hnode x hx hk, hk]
        rfl
      · rw [if_neg fun heq => hk (congrArg NodeId.index heq),
          if_neg fun heq => hk (Option.some.inj heq).symm]
        exact hl.nodes x hx
    · rw [hrev.opened, stack_of_closing, ← hopened]
      rfl

/-- Every event makes of the draft what it should. -/
theorem Traces.read (h : d.Traces events) (hr : Draft.read event d = .ok u d') :
    d'.Traces (events ++ [event]) := by
  cases event with
  | opening tag =>
    obtain ⟨_, _, hget, hr⟩ := ok_of_bind hr
    cases hget
    simp only at hr
    split at hr
    · cases hr
    · obtain ⟨id, d₁, hopen, hr⟩ := ok_of_bind hr
      cases hr
      have htag : (Event.opening tag).tag? = some tag := rfl
      obtain ⟨rfl, ho, hl⟩ := h.openElement htag hopen
      refine ⟨⟨hl.size, hl.rooted, hl.blank, hl.nodes, hl.apt⟩, ?_⟩
      rw [stack_of_opening, ← h.opened, ← ho]
  | empty tag =>
    obtain ⟨id, d₁, hopen, hr⟩ := ok_of_bind hr
    rw [closeElement_empty] at hr
    cases hr
    have htag : (Event.empty tag).tag? = some tag := rfl
    obtain ⟨-, ho, hl⟩ := h.openElement htag hopen
    exact ⟨hl, by rw [stack_of_empty, ← h.opened, ← ho]⟩
  | text raw =>
    obtain ⟨_, _, hget, hr⟩ := ok_of_bind hr
    cases hget
    split at hr
    · obtain ⟨text, d₁, hm, hr⟩ := ok_of_bind hr
      cases hp : plainText? raw with
      | none =>
        rw [hp] at hm
        cases hm
      | some text =>
        rw [hp] at hm
        cases hm
        exact h.appendText rfl nofun hp hr
    · rename_i hempty
      cases hr
      have hopened : d.opened = [] := by simpa using hempty
      refine ⟨h.toLists.of_text rfl nofun, ?_⟩
      rw [hopened, stack_of_outside (h.opened.symm.trans hopened) rfl]
  | verbatim raw => exact h.appendText rfl nofun rfl hr
  | closing => exact h.closing hr

theorem Traces.reads {rest : List Event} (h : d.Traces events)
    (hr : rest.forM Draft.read d = .ok u d') : d'.Traces (events ++ rest) := by
  induction rest generalizing d events with
  | nil =>
    cases hr
    rw [List.append_nil]
    exact h
  | cons event rest ih =>
    obtain ⟨_, d₁, hfirst, hr⟩ := ok_of_bind hr
    rw [List.append_cons]
    exact ih (h.read hfirst) hr

theorem traces_ofName (name : String) : Traces [] ⟨ofName name, [], false, #[]⟩ :=
  ⟨⟨rfl, rfl, fun _ => rfl, nofun, nofun⟩, rfl⟩

end Read

end Draft
variable {p : Pattern} {events : List Event} {name : String} {bs : Bytes} {notices : Array Notice}
  {x : Markup.Entry} {id c : NodeId}

/-- The pattern is the tree of the elements of a document: the nodes are the elements in the order in
which they begin, each under the one that it stands in. -/
structure Outlines (p : Pattern) (events : List Event) : Prop where
  nodes : p.nodes.toList = (entries events).map (Entry.node events)
  root : 0 < p.size ∧ p.element root = .bulletml ∧ (p.node root).parent = none
  element : ∀ x ∈ entries events, x.tag.element? = some (p.element ⟨x.number⟩)
  parent : ∀ x ∈ entries events, (p.node ⟨x.number⟩).parent = x.parent.map .mk
  enclosed : ∀ id, p.Has id → id ≠ Pattern.root → ∃ parent,
    (p.node id).parent = some parent ∧ parent.index < id.index ∧ (p.children parent).count id = 1
  children : ∀ id c, c ∈ p.children id ↔ p.Has c ∧ (p.node c).parent = some id
  increasing : ∀ id, (p.children id).Pairwise (·.index < ·.index)
  mode : ∀ id m, p.mode id = some m →
    p.element id ∈ [Element.direction, .speed, .horizontal, .vertical] ∧
      (m = .aim → p.element id = .direction)
  expr : ∀ x ∈ entries events, ∀ e, (p.node ⟨x.number⟩).expr = some e →
    (p.element ⟨x.number⟩).carriesValue = true ∧
      Expr.parse (Text.trim (textOf events x.number)) = .ok e
  definitions : ∀ d ∈ p.definitions, p.Has d.node ∧ p.element d.node = d.kind

section Outline

theorem Draft.Traces.size_eq {d : Draft} (h : d.Traces events) (hr : d.rooted = true) :
    d.pattern.size = (place events).begun := by
  have hroot := h.rooted
  rw [hr, eq_comm, decide_eq_true_iff] at hroot
  rw [h.size]
  exact max_eq_right hroot

theorem value?_eq_some {e : Element} {text : String} {v : Expr} (h : e.value? text = some v) :
    e.carriesValue = true ∧ Expr.parse (Text.trim text) = .ok v := by
  unfold Element.value? at h
  split at h
  · rename_i hv
    rw [Bool.and_eq_true] at hv
    cases hp : Expr.parse (Text.trim text) with
    | error cause =>
      rw [hp] at h
      cases h
    | ok v' =>
      rw [hp] at h
      cases h
      exact ⟨hv.1, rfl⟩
  · cases h

theorem accepts_cases {e : Element} {m : Mode} (h : e.accepts m = true) :
    e ∈ [Element.direction, .speed, .horizontal, .vertical] ∧ (m = .aim → e = .direction) := by
  cases e <;> cases m <;> first | exact absurd h (by decide) | decide

/-- What has been read makes a tree of the elements that have begun. -/
theorem Draft.Traces.outlines {d : Draft} (h : d.Traces events) (hr : d.rooted = true)
    (hb : d.pattern.Built) : d.pattern.Outlines events := by
  have hsound := sound_place events
  have hsize := h.size_eq hr
  have hin (id : NodeId) (hi : d.pattern.Has id) : ∃ x ∈ entries events, id = ⟨x.number⟩ := by
    obtain ⟨x, hx, hk⟩ := exists_entry (Nat.lt_of_lt_of_eq hi hsize)
    exact ⟨x, hx, by rw [hk]⟩
  have hhas {x : Markup.Entry} (hx : x ∈ entries events) : d.pattern.Has ⟨x.number⟩ := by
    rw [Has, hsize]
    exact Entry.number_lt hx
  have helement : ∀ x ∈ entries events, d.pattern.element ⟨x.number⟩ = x.start.element := by
    intro x hx
    rw [Pattern.element, h.nodes x hx]
    rfl
  have hparent : ∀ x ∈ entries events,
      (d.pattern.node ⟨x.number⟩).parent = x.parent.map .mk := by
    intro x hx
    rw [h.nodes x hx, Entry.node, x.start_eq]
  have hchildren : ∀ x ∈ entries events,
      d.pattern.children ⟨x.number⟩ = (childrenOf events x.number).map .mk := by
    intro x hx
    rw [Pattern.children, h.nodes x hx]
    exact List.toList_toArray
  have hmem : ∀ id c, c ∈ d.pattern.children id ↔
      d.pattern.Has c ∧ (d.pattern.node c).parent = some id := by
    intro id c
    constructor
    · intro hc
      obtain ⟨x, hx, rfl⟩ := hin id (has_of_mem_children hc)
      rw [hchildren x hx, List.mem_map] at hc
      obtain ⟨j, hj, rfl⟩ := hc
      obtain ⟨y, hy, hp, rfl⟩ := mem_childrenOf.1 hj
      exact ⟨hhas hy, by rw [hparent y hy, hp]; rfl⟩
    · rintro ⟨hc, hp⟩
      obtain ⟨y, hy, rfl⟩ := hin c hc
      rw [hparent y hy, Option.map_eq_some_iff] at hp
      obtain ⟨k, hp, rfl⟩ := hp
      obtain ⟨x, hx, rfl⟩ := exists_entry ((hsound.parents y hy k hp).trans (Entry.number_lt hy))
      rw [hchildren x hx, List.mem_map]
      exact ⟨y.number, mem_childrenOf.2 ⟨y, hy, hp, rfl⟩, rfl⟩
  have hincreasing : ∀ id, (d.pattern.children id).Pairwise (·.index < ·.index) := by
    intro id
    by_cases hi : d.pattern.Has id
    · obtain ⟨x, hx, rfl⟩ := hin id hi
      rw [hchildren x hx, List.pairwise_map]
      exact childrenOf_increasing _
    · rw [children_of_not_has hi]
      exact .nil
  have hfirst : ∀ x ∈ entries events, (⟨x.number⟩ : NodeId) = Pattern.root → x.parent = none := by
    intro x hx hroot
    exact (h.apt x hx).first.1 (congrArg NodeId.index hroot)
  refine ⟨?_, ⟨hb.closed.root, ?_⟩, ?_, hparent, ?_, hmem, hincreasing, ?_, ?_,
    hb.closed.definitions⟩
  · apply List.ext_getElem?
    intro i
    rw [Array.getElem?_toList, List.getElem?_map]
    by_cases hi : i < d.pattern.nodes.size
    · have hnumber : (entries events)[i]?.map Entry.number = some i := by
        rw [← List.getElem?_map, hsound.numbers]
        exact List.getElem?_range (hsize ▸ hi)
      obtain ⟨x, hx, rfl⟩ := Option.map_eq_some_iff.1 hnumber
      rw [hx, Option.map_some, ← h.nodes x (List.mem_of_getElem? hx)]
      simp [node, node?, hi]
    · have hlength : (entries events).length = d.pattern.nodes.size := by
        rw [← List.length_map Entry.number, hsound.numbers, List.length_range, ← hsize]
        rfl
      rw [Array.getElem?_eq_none (Nat.le_of_not_lt hi),
        List.getElem?_eq_none (hlength ▸ Nat.le_of_not_lt hi)]
      rfl
  · obtain ⟨x, hx, hroot⟩ := hin Pattern.root hb.closed.root
    have hnone := hfirst x hx hroot.symm
    rw [hroot, helement x hx, hparent x hx, hnone]
    exact ⟨(h.apt x hx).bulletml.2 hnone, rfl⟩
  · intro x hx
    rw [helement x hx]
    exact (h.apt x hx).element
  · intro id hi hne
    obtain ⟨x, hx, rfl⟩ := hin id hi
    cases hp : x.parent with
    | none => exact absurd (congrArg NodeId.mk ((h.apt x hx).first.2 hp)) hne
    | some k =>
      have hpx := hparent x hx
      rw [hp] at hpx
      refine ⟨⟨k⟩, hpx, hsound.parents x hx k hp, ?_⟩
      apply List.count_eq_one_of_mem
      · exact (hincreasing _).imp fun hlt heq => Nat.ne_of_lt hlt (congrArg NodeId.index heq)
      · exact (hmem _ _).2 ⟨hi, hpx⟩
  · intro id m hm
    by_cases hi : d.pattern.Has id
    · obtain ⟨x, hx, rfl⟩ := hin id hi
      rw [Pattern.mode, h.nodes x hx] at hm
      rw [helement x hx]
      exact accepts_cases ((h.apt x hx).modes m hm)
    · rw [Pattern.mode, node_of_not_has hi] at hm
      cases hm
  · intro x hx e he
    rw [h.nodes x hx] at he
    rw [helement x hx]
    simp only [Entry.node, valueOf] at he
    split at he
    · exact value?_eq_some he
    · cases he

/-- A document that gives a pattern is read to its end, and the pattern is the tree of its
elements. -/
theorem ofDocument_outlines (h : ofDocument name bs = (.ok p, notices)) :
    (scan bs).complete = true ∧ p.Outlines (scan bs).events := by
  obtain ⟨hbuilt, -⟩ := ofDocument_ok h (E := fun _ => True) trivial fun _ _ _ _ => trivial
  obtain ⟨d, hread, hcomplete, hrooted, -, rfl, -⟩ := ofDocument_eq_ok.1 h
  exact ⟨hcomplete, ((Draft.traces_ofName name).reads hread).outlines hrooted hbuilt⟩

/-- A document with text in several pieces, a mode and labels. -/
def fanText : Bytes :=
  ["<bulletml>", "<action label='top'>",
    "<fire label='it'>", "<direction type='aim'> 1<!-- - -->0 </direction>", "<bullet/>", "</fire>",
    "<wait>2+<![CDATA[3]]></wait>", "<vanish/>", "</action>", "</bulletml>"].flatMap ascii

theorem fan_outlines : ∃ p notices, ofDocument "fan" fanText = (.ok p, notices) ∧
    p.size = 7 ∧ p.Outlines (scan fanText).events := by
  have hsize : (ofDocument "fan" fanText).1.toOption.map size = some 7 := by decide +kernel
  cases h : ofDocument "fan" fanText with
  | mk read notices =>
    rw [h] at hsize
    cases read with
    | error e => cases hsize
    | ok p => exact ⟨p, notices, rfl, Option.some.inj hsize, (ofDocument_outlines h).2⟩

end Outline

end Pattern
end Barrage

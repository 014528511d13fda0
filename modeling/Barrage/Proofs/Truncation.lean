import Barrage.Proofs.Shape

namespace Barrage

open Markup

namespace Markup

variable {events : List Event} {n : Nat}

theorem within_of_closings (n : Nat) : (place (events ++ List.replicate n .closing)).within =
    (place events).within.drop n := by
  induction n with
  | zero => rw [List.replicate_zero, List.append_nil, List.drop_zero]
  | succ n ih =>
    rw [List.replicate_succ', ← List.append_assoc, place_snoc, Place.next, ih, List.tail_drop]

theorem entries_of_closings (n : Nat) :
    entries (events ++ List.replicate n .closing) = entries events := by
  induction n with
  | zero => rw [List.replicate_zero, List.append_nil]
  | succ n ih =>
    rw [List.replicate_succ', ← List.append_assoc, entries_snoc, ih]
    exact List.append_nil _

/-- An element that is open has no value. -/
theorem Entry.expr_of_open {x : Entry} (hx : x.number ∈ (place events).within) :
    (x.node events).expr = none := by
  rw [node, valueOf, if_neg]
  intro hc
  exact ((sound_place events).closed _ hc).2 hx

/-- End tags give values and nothing else, and only to elements that are open. -/
theorem Entry.node_of_closings (x : Entry) (n : Nat) :
    x.node events =
      if x.number ∈ (place events).within then
        { x.node (events ++ List.replicate n .closing) with expr := none }
      else x.node (events ++ List.replicate n .closing) := by
  induction n with
  | zero =>
    rw [List.replicate_zero, List.append_nil]
    split
    · rename_i hx
      rw [← expr_of_open hx]
    · rfl
  | succ n ih =>
    rw [List.replicate_succ', ← List.append_assoc, node_of_closing, within_of_closings]
    by_cases hx : x.number ∈ (place events).within
    · rw [if_pos hx] at ih ⊢
      rw [ih]
      split <;> rfl
    · rw [if_neg hx] at ih ⊢
      rw [if_neg, ih]
      intro hk
      exact hx (List.mem_of_mem_drop (List.mem_of_mem_head? hk))

end Markup

namespace Pattern

variable {p p' : Pattern}

/-- The patterns differ in their values at most. -/
structure Agrees (p p' : Pattern) : Prop where
  size : p'.size = p.size
  definitions : p'.definitions = p.definitions
  nodes : ∀ id, ∃ e, p'.node id = { p.node id with expr := e }

theorem Agrees.refl (p : Pattern) : p.Agrees p := ⟨rfl, rfl, fun _ => ⟨_, rfl⟩⟩

theorem Agrees.trans {p'' : Pattern} (h₁ : p.Agrees p') (h₂ : p'.Agrees p'') : p.Agrees p'' where
  size := h₂.size.trans h₁.size
  definitions := h₂.definitions.trans h₁.definitions
  nodes id := by
    obtain ⟨e₁, h₁⟩ := h₁.nodes id
    obtain ⟨e₂, h₂⟩ := h₂.nodes id
    exact ⟨e₂, by rw [h₂, h₁]⟩

theorem agrees_setExpr (p : Pattern) (id : NodeId) (x : Expr) : p.Agrees (p.setExpr id x) where
  size := size_modifyNode _
  definitions := rfl
  nodes k := by
    rw [setExpr, node_modifyNode]
    split
    · rename_i hk
      exact ⟨some x, by rw [hk.1]⟩
    · exact ⟨_, rfl⟩

/-- The check of a pattern looks at no values. -/
theorem Agrees.validate (h : p.Agrees p') : p'.validate = p.validate := by
  have helement (id : NodeId) : p'.element id = p.element id := by
    obtain ⟨e, he⟩ := h.nodes id
    rw [element, he]
    rfl
  have hchild (id : NodeId) (e : Element) : p'.child? id e = p.child? id e := by
    obtain ⟨v, hv⟩ := h.nodes id
    simp only [child?, children, hv, helement]
  have hrequired (id : NodeId) (e : Element) : p'.required id e = p.required id e := by
    simp only [required, hchild, helement]
  have hresolve (id : NodeId) : p'.resolve id = p.resolve id := by
    obtain ⟨v, hv⟩ := h.nodes id
    simp only [resolve, lookup?, h.definitions, hv, helement]
  have hcheck : p'.checkNode = p.checkNode := by
    funext id
    simp only [checkNode, helement, hchild, hrequired, hresolve]
  rw [Pattern.validate, Pattern.validate, ids, h.size, hcheck]
  rfl

namespace Draft

variable {d d' : Draft} {u : Unit} {id : NodeId} {text : String} {n : Nat}

theorem agrees_closeElement (h : closeElement id text d = .ok u d') :
    d.pattern.Agrees d'.pattern ∧ d'.rooted = d.rooted ∧ d'.notices = d.notices := by
  obtain ⟨_, _, hget, h⟩ := ok_of_bind h
  cases hget
  simp only at h
  split at h
  · cases hx : Expr.parse (Text.trim text) with
    | error cause =>
      rw [hx] at h
      cases h
    | ok x =>
      rw [hx] at h
      cases h
      exact ⟨agrees_setExpr _ id x, rfl, rfl⟩
  · cases h
    exact ⟨.refl _, rfl, rfl⟩

/-- What end tags do to a draft. -/
theorem agrees_closings (h : (List.replicate n Event.closing).forM Draft.read d = .ok u d') :
    d.pattern.Agrees d'.pattern ∧ d'.rooted = d.rooted ∧ d'.notices = d.notices := by
  induction n generalizing d with
  | zero =>
    cases h
    exact ⟨.refl _, rfl, rfl⟩
  | succ n ih =>
    obtain ⟨_, d₁, hfirst, h⟩ := ok_of_bind h
    have hstep : d.pattern.Agrees d₁.pattern ∧ d₁.rooted = d.rooted ∧ d₁.notices = d.notices := by
      obtain ⟨_, _, hget, hfirst⟩ := ok_of_bind hfirst
      cases hget
      obtain ⟨p, opened, rooted, notices⟩ := d
      cases opened with
      | nil =>
        cases hfirst
        exact ⟨.refl _, rfl, rfl⟩
      | cons top outer =>
        obtain ⟨_, _, hset, hfirst⟩ := ok_of_bind hfirst
        cases hset
        exact agrees_closeElement (d := ⟨p, outer, rooted, notices⟩) hfirst
    obtain ⟨ha, hr, hn⟩ := hstep
    obtain ⟨ha', hr', hn'⟩ := ih h
    exact ⟨ha.trans ha', hr'.trans hr, hn'.trans hn⟩

end Draft

/-- The end tags at the end of a document are not missed. Without them it gives the same pattern, but
for the values of the elements that they end: those are lost. -/
theorem ofDocument_without_end_tags {name : String} {bs cut : Bytes} {notices : Array Notice}
    {n : Nat} (h : ofDocument name bs = (.ok p, notices)) (hc : (scan cut).complete = true)
    (he : (scan bs).events = (scan cut).events ++ List.replicate n .closing) :
    ∃ p', ofDocument name cut = (.ok p', notices) ∧ p'.size = p.size ∧
      p'.definitions = p.definitions ∧
      ∀ id, p'.node id =
        if id.index ∈ (place (scan cut).events).within then { p.node id with expr := none }
        else p.node id := by
  obtain ⟨d, hread, -, hrooted, hvalid, rfl, rfl⟩ := ofDocument_eq_ok.1 h
  have hwhole := (Draft.traces_ofName name).reads hread
  rw [he, List.forM_eq_forM, List.forM_append] at hread
  obtain ⟨_, d', hread', hclosings⟩ := ok_of_bind hread
  have hcut := (Draft.traces_ofName name).reads hread'
  obtain ⟨ha, hr, hn⟩ := Draft.agrees_closings hclosings
  have hrooted' : d'.rooted = true := hr.symm.trans hrooted
  refine ⟨d'.pattern, ofDocument_eq_ok.2 ⟨d', hread', hc, hrooted', ?_, rfl, hn.symm⟩,
    ha.size.symm, ha.definitions.symm, ?_⟩
  · rw [← ha.validate]
    exact hvalid
  · intro id
    have hsize := hcut.size_eq hrooted'
    rw [List.nil_append] at hwhole hcut hsize
    by_cases hi : d'.pattern.Has id
    · obtain ⟨x, hx, hk⟩ := exists_entry (k := id.index) (Nat.lt_of_lt_of_eq hi hsize)
      obtain rfl : (⟨x.number⟩ : NodeId) = id := by rw [hk]
      have hx' : x ∈ entries (scan bs).events := by
        rw [he, entries_of_closings]
        exact hx
      rw [hcut.nodes x hx, hwhole.nodes x hx', he]
      exact x.node_of_closings n
    · have hout : id.index ∉ (place (scan cut).events).within := by
        intro hin
        exact hi (Nat.lt_of_lt_of_eq ((sound_place _).begun _ hin) hsize.symm)
      rw [if_neg hout, node_of_not_has hi, node_of_not_has]
      rw [Has, ha.size]
      exact hi

/-- A document whose only wait takes five frames. -/
def pauseText : Bytes :=
  ["<bulletml>", "<action label='top'>", "<wait>5", "</wait>", "</action>",
    "</bulletml>"].flatMap ascii

/-- That document up to where its first end tag begins. -/
def cutPauseText : Bytes := ["<bulletml>", "<action label='top'>", "<wait>5"].flatMap ascii

theorem pause_without_end_tags : ∃ p p' notices, ofDocument "pause" pauseText = (.ok p, notices) ∧
    ofDocument "pause" cutPauseText = (.ok p', notices) ∧
    p'.node ⟨2⟩ = { p.node ⟨2⟩ with expr := none } := by
  have hsome : (ofDocument "pause" pauseText).1.toOption.isSome = true := by decide +kernel
  have hcomplete : (scan cutPauseText).complete = true := by decide +kernel
  have hevents : (scan pauseText).events =
      (scan cutPauseText).events ++ List.replicate 3 .closing := by decide +kernel
  have hopen : 2 ∈ (place (scan cutPauseText).events).within := by decide +kernel
  cases h : ofDocument "pause" pauseText with
  | mk read notices =>
    rw [h] at hsome
    cases read with
    | error e => cases hsome
    | ok p =>
      obtain ⟨p', hcut, -, -, hnode⟩ := ofDocument_without_end_tags h hcomplete hevents
      refine ⟨p, p', notices, rfl, hcut, ?_⟩
      rw [hnode, if_pos hopen]

/-- A part of a document in which no element is closed gives a pattern, and its wait takes no time
at all. -/
theorem cut_document_loads : cutPauseText <+: pauseText ∧
    (place (scan cutPauseText).events).within = [2, 1, 0] ∧
    ((ofDocument "pause" cutPauseText).1.toOption.map fun p =>
      (p.element ⟨2⟩, (p.node ⟨2⟩).expr.isSome)) = some (.wait, false) ∧
    ((ofDocument "pause" pauseText).1.toOption.map fun p =>
      (p.element ⟨2⟩, (p.node ⟨2⟩).expr.isSome)) = some (.wait, true) := by
  refine ⟨?_, ?_, ?_, ?_⟩ <;> decide +kernel

end Pattern
end Barrage

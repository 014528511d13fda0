import Barrage.Proofs.Nesting

namespace Barrage.Pattern

/-- The pattern was put together node by node, and its nodes were labelled as in the log, the latest
label first. -/
inductive Labelled : List Definition → Pattern → Prop where
  | ofName (name : String) : Labelled [] (.ofName name)
  | addNode {log : List Definition} {p : Pattern} (parent : NodeId) (e : Element)
      (h : Labelled log p) (hi : parent.index ≤ p.size) : Labelled log (p.addNode parent e).2
  | setLabel {log : List Definition} {p : Pattern} {n : NodeId} (label : String)
      (h : Labelled log p) (hi : p.Has n) :
      Labelled (⟨p.element n, label, n⟩ :: log) (p.setLabel n label).1
  | setMode {log : List Definition} {p : Pattern} {n : NodeId} (mode : Mode)
      (h : Labelled log p) (hi : p.Has n) : Labelled log (p.setMode n mode)
  | setExpr {log : List Definition} {p : Pattern} {n : NodeId} (e : Expr)
      (h : Labelled log p) (hi : p.Has n) : Labelled log (p.setExpr n e)

variable {p : Pattern} {n parent r t : NodeId} {e kind : Element} {label : String}
  {log : List Definition} {d : Definition}

section Nodes

theorem label_modifyNode (p : Pattern) (n : NodeId) {f : Node → Node}
    (hf : ∀ m, (f m).label = m.label) (t : NodeId) :
    ((p.modifyNode n f).node t).label = (p.node t).label := by
  rw [node_modifyNode]
  split
  · rename_i h
    rw [hf, h.1]
  · rfl

theorem label_addNode : ((p.addNode parent e).2.node n).label = (p.node n).label := by
  have hlabel := label_modifyNode { p with nodes := p.nodes.push (.bare e (some parent)) } parent
    (f := fun m => { m with children := m.children.push ⟨p.size⟩ }) (fun _ => rfl) n
  apply hlabel.trans
  rw [node_pushed]
  split
  · rename_i hn
    have hnew : ¬p.Has ⟨p.size⟩ := Nat.lt_irrefl p.size
    rw [hn, node_of_not_has hnew]
    rfl
  · rfl

/-- Every node takes the label, but only that of a definition is entered. -/
theorem setLabel_eq : (p.setLabel r label).1 =
    { p.modifyNode r fun m => { m with label := some label } with
      definitions := [⟨p.element r, label, r⟩].filter (·.kind.isDefinition) ++ p.definitions } := by
  simp only [Pattern.setLabel]
  split <;> rename_i h <;> simp [h, Pattern.modifyNode]

end Nodes

/-- The labels that a pattern shows are the latest of the log, and what its definitions were ever
labelled with is on record. -/
structure Records (log : List Definition) (p : Pattern) : Prop where
  nodes : ∀ d ∈ log, p.Has d.node ∧ p.element d.node = d.kind
  labels : ∀ n, (p.node n).label = (log.find? (·.node = n)).map Definition.label
  definitions : p.definitions = log.filter (·.kind.isDefinition)

section Records

theorem Records.modifyNode {f : Node → Node} (h : Records log p) (hl : ∀ m, (f m).label = m.label)
    (he : ∀ m, (f m).element = m.element) : Records log (p.modifyNode n f) where
  nodes d hd := by
    rw [Has, size_modifyNode, element_modifyNode p n he]
    exact h.nodes d hd
  labels t := (label_modifyNode p n hl t).trans (h.labels t)
  definitions := h.definitions

theorem Records.addNode (h : Records log p) : Records log (p.addNode parent e).2 where
  nodes d hd := by
    obtain ⟨hn, hk⟩ := h.nodes d hd
    have hold : d.node ≠ ⟨p.size⟩ := by
      intro he
      rw [he] at hn
      exact Nat.lt_irrefl p.size hn
    rw [Has, size_addNode, element_addNode, if_neg hold]
    exact ⟨Nat.lt_succ_of_lt hn, hk⟩
  labels n := label_addNode.trans (h.labels n)
  definitions := h.definitions

theorem Records.setLabel (h : Records log p) (hi : p.Has r) :
    Records (⟨p.element r, label, r⟩ :: log) (p.setLabel r label).1 where
  nodes d hd := by
    have hr := retains_setLabel hi label
    rw [hr.element]
    rcases List.mem_cons.1 hd with rfl | hd
    · exact ⟨hr.has hi, rfl⟩
    · exact (h.nodes d hd).imp_left hr.has
  labels n := by
    have hnode : (p.setLabel r label).1.node n =
        (p.modifyNode r fun m => { m with label := some label }).node n := by
      rw [setLabel_eq]
      rfl
    rw [hnode, node_modifyNode, List.find?_cons]
    by_cases hn : n = r
    · rw [if_pos ⟨hn, hi⟩, decide_eq_true hn.symm]
      rfl
    · rw [if_neg fun hand => hn hand.1, decide_eq_false (Ne.symm hn)]
      exact h.labels n
  definitions := by
    rw [setLabel_eq, h.definitions, ← List.filter_append, List.singleton_append]

theorem Labelled.records (h : Labelled log p) : Records log p := by
  induction h with
  | ofName name =>
    refine ⟨by simp, ?_, rfl⟩
    intro n
    rcases n with ⟨_ | i⟩
    · rfl
    · simp [node, node?, Pattern.ofName, Node.bare]
  | addNode _ _ _ _ ih => exact ih.addNode
  | setLabel _ _ hi ih => exact ih.setLabel hi
  | setMode _ _ _ ih => exact ih.modifyNode (fun _ => rfl) fun _ => rfl
  | setExpr _ _ _ ih => exact ih.modifyNode (fun _ => rfl) fun _ => rfl

/-- However a pattern was put together, there is a log of it. -/
theorem Built.exists_log (h : p.Built) : ∃ log, Labelled log p := by
  induction h with
  | ofName name => exact ⟨_, .ofName name⟩
  | addNode parent e _ hi ih => exact ih.imp fun _ hl => .addNode parent e hl hi
  | setLabel label _ hi ih =>
    obtain ⟨log, hl⟩ := ih
    exact ⟨_, .setLabel label hl hi⟩
  | setMode mode _ hi ih => exact ih.imp fun _ hl => .setMode mode hl hi
  | setExpr e _ hi ih => exact ih.imp fun _ hl => .setExpr e hl hi

end Records

/-- Of the entries with this kind and label, that of `t` is the latest. -/
def Latest (log : List Definition) (kind : Element) (label : String) (t : NodeId) : Prop :=
  ∃ newer older, log = newer ++ ⟨kind, label, t⟩ :: older ∧
    ∀ d ∈ newer, d.kind = kind → d.label ≠ label

section Lookup

theorem latest_iff : Latest log kind label t ↔
    (log.find? fun d => d.kind == kind && d.label == label).map Definition.node = some t := by
  rw [Option.map_eq_some_iff]
  constructor
  · rintro ⟨newer, older, rfl, hnewer⟩
    refine ⟨⟨kind, label, t⟩, ?_, rfl⟩
    rw [List.find?_eq_some_iff_append]
    exact ⟨by simp, newer, older, rfl, fun d hd => by simpa [Decidable.imp_iff_not_or] using hnewer d hd⟩
  · rintro ⟨⟨k, l, m⟩, hd, rfl⟩
    rw [List.find?_eq_some_iff_append] at hd
    obtain ⟨hkey, newer, older, rfl, hnewer⟩ := hd
    simp only [Bool.and_eq_true, beq_iff_eq] at hkey
    obtain ⟨rfl, rfl⟩ := hkey
    exact ⟨newer, older, rfl, fun d hd => by simpa [Decidable.imp_iff_not_or] using hnewer d hd⟩

theorem Latest.unique (h : Latest log kind label n) (h' : Latest log kind label t) : n = t :=
  Option.some.inj ((latest_iff.1 h).symm.trans (latest_iff.1 h'))

theorem Latest.mem (h : Latest log kind label t) : ⟨kind, label, t⟩ ∈ log := by
  obtain ⟨newer, older, rfl, _⟩ := h
  exact List.mem_append_right _ List.mem_cons_self

/-- The table of definitions has no entry but those of the log. -/
theorem Records.lookup? (h : Records log p) (hk : kind.isDefinition = true) :
    p.lookup? kind label =
      (log.find? fun d => d.kind == kind && d.label == label).map Definition.node := by
  rw [Pattern.lookup?, h.definitions, List.find?_filter]
  congr 2
  funext d
  by_cases hd : d.kind = kind
  · rw [Bool.eq_iff_iff]
    simp [hd, hk]
  · simp [hd]

/-- A node that bears a label was given it under its own kind. -/
theorem Records.mem_of_label (h : Records log p) (hl : (p.node n).label = some label) :
    ⟨p.element n, label, n⟩ ∈ log := by
  rw [h.labels] at hl
  obtain ⟨⟨k, l, m⟩, hd, rfl⟩ := Option.map_eq_some_iff.1 hl
  have hn : m = n := by simpa using List.find?_some hd
  have hmem := List.mem_of_find?_eq_some hd
  rw [← hn, (h.nodes _ hmem).2]
  exact hmem

theorem isDefinition_of_refTarget? (h : e.refTarget? = some kind) : kind.isDefinition = true := by
  cases e <;> cases h <;> rfl

/-- A reference leads to the latest definition that was labelled as it is, or nowhere. -/
theorem Records.resolve (h : Records log p) (hr : (p.element r).refTarget? = some kind) :
    (∃ t, p.resolve r = .ok t ∧ Latest log kind ((p.node r).label.getD "") t) ∨
      p.resolve r = .error (.danglingRef (p.element r) ((p.node r).label.getD "")) ∧
        ∀ d ∈ log, d.kind = kind → d.label ≠ (p.node r).label.getD "" := by
  unfold Pattern.resolve
  rw [hr]
  simp only [h.lookup? (isDefinition_of_refTarget? hr)]
  cases hf : log.find? fun d => d.kind == kind && d.label == (p.node r).label.getD "" with
  | some d => exact .inl ⟨d.node, rfl, latest_iff.2 (by rw [hf]; rfl)⟩
  | none =>
    refine .inr ⟨rfl, fun d hd hk hl => ?_⟩
    have hnone := List.find?_eq_none.1 hf d hd
    simp [hk, hl] at hnone

end Lookup

/-- A reference leads to the node that was labelled last with its text, among those of its kind, and
nowhere if there was none. Unless such a node has been given another label since, it bears the text,
and a reference leads nowhere exactly if no node of its kind does. -/
theorem references_lead_to_latest_labelling (h : Labelled log p)
    (hr : (p.element r).refTarget? = some kind) :
    let text := (p.node r).label.getD ""
    let dangling := p.resolve r = .error (.danglingRef (p.element r) text)
    (∀ t, p.resolve r = .ok t ↔ Latest log kind text t) ∧
    (∀ t, p.resolve r = .ok t → p.Has t ∧ p.element t = kind) ∧
    (dangling ↔ ∀ d ∈ log, d.kind = kind → d.label ≠ text) ∧
    (dangling → ∀ n, p.element n = kind → (p.node n).label ≠ some text) ∧
    ((∀ d ∈ log, d.kind = kind → d.label = text → (p.node d.node).label = some text) →
      (∀ t, p.resolve r = .ok t → (p.node t).label = some text) ∧
      (dangling ↔ ∀ n, p.element n = kind → (p.node n).label ≠ some text)) := by
  intro text dangling
  have hrec := h.records
  have hok (t) : p.resolve r = .ok t ↔ Latest log kind text t := by
    rcases hrec.resolve hr with ⟨n, hn, hlatest⟩ | ⟨he, hnone⟩
    · rw [hn]
      exact ⟨fun heq => Except.ok.inj heq ▸ hlatest, fun ht => by rw [hlatest.unique ht]⟩
    · rw [he]
      exact ⟨nofun, fun ht => absurd rfl (hnone _ ht.mem rfl)⟩
  have hdangling : dangling ↔ ∀ d ∈ log, d.kind = kind → d.label ≠ text := by
    rcases hrec.resolve hr with ⟨n, hn, hlatest⟩ | ⟨he, hnone⟩
    · refine ⟨fun hd => ?_, fun hnone => absurd rfl (hnone _ hlatest.mem rfl)⟩
      cases hn.symm.trans hd
    · exact ⟨fun _ => hnone, fun _ => he⟩
  have hunborne : dangling → ∀ n, p.element n = kind → (p.node n).label ≠ some text := by
    intro hd n hn hl
    exact hdangling.1 hd _ (hrec.mem_of_label hl) hn rfl
  refine ⟨hok, ?_, hdangling, hunborne, ?_⟩
  · intro t ht
    exact hrec.nodes _ ((hok t).1 ht).mem
  · intro hkept
    refine ⟨fun t ht => hkept _ ((hok t).1 ht).mem rfl rfl, hunborne, ?_⟩
    intro hnone
    refine hdangling.2 fun d hd hk hl => ?_
    exact hnone d.node ((hrec.nodes d hd).2.trans hk) (hkept d hd hk hl)

/-- An action whose label was changed from `a` to `b`, and a reference to `a`. -/
def renamed : Pattern :=
  let p := ((ofName "renamed").addNode root .action).2
  let p := ((p.setLabel ⟨1⟩ "a").1.setLabel ⟨1⟩ "b").1
  let p := (p.addNode root .actionRef).2
  (p.setLabel ⟨2⟩ "a").1

theorem labelled_renamed :
    Labelled [⟨.actionRef, "a", ⟨2⟩⟩, ⟨.action, "b", ⟨1⟩⟩, ⟨.action, "a", ⟨1⟩⟩] renamed :=
  .setLabel (n := ⟨2⟩) "a" (.addNode root .actionRef (.setLabel (n := ⟨1⟩) "b"
    (.setLabel (n := ⟨1⟩) "a" (.addNode root .action (.ofName "renamed") (by decide)) (by decide))
    (by decide)) (by decide)) (by decide)

/-- The reference leads to the action by the label that it had first. -/
theorem renamed_reference_leads_to_its_action :
    (renamed.element ⟨2⟩).refTarget? = some .action ∧ renamed.resolve ⟨2⟩ = .ok ⟨1⟩ ∧
      renamed.Has ⟨1⟩ ∧ renamed.element ⟨1⟩ = .action := by
  have hr : (renamed.element ⟨2⟩).refTarget? = some .action := by decide +kernel
  obtain ⟨hok, hkind, _⟩ := references_lead_to_latest_labelling labelled_renamed hr
  have hresolve : renamed.resolve ⟨2⟩ = .ok ⟨1⟩ := by
    refine (hok ⟨1⟩).2 ⟨[⟨.actionRef, "a", ⟨2⟩⟩, ⟨.action, "b", ⟨1⟩⟩], [], by decide +kernel, ?_⟩
    decide +kernel
  exact ⟨hr, hresolve, hkind ⟨1⟩ hresolve⟩

/-- The action does not bear the label of the reference, nor does any other. -/
theorem renamed_action_is_still_found :
    (¬∀ log p r kind t, Labelled log p → (p.element r).refTarget? = some kind →
      p.resolve r = .ok t → (p.node t).label = some ((p.node r).label.getD "")) ∧
    ¬∀ log p r kind, Labelled log p → (p.element r).refTarget? = some kind →
      (∀ n, p.element n = kind → (p.node n).label ≠ some ((p.node r).label.getD "")) →
      p.resolve r = .error (.danglingRef (p.element r) ((p.node r).label.getD "")) := by
  have hr : (renamed.element ⟨2⟩).refTarget? = some .action := by decide +kernel
  have hfound : renamed.resolve ⟨2⟩ = .ok ⟨1⟩ := rfl
  constructor
  · intro h
    have hlabel := h _ renamed ⟨2⟩ .action ⟨1⟩ labelled_renamed hr hfound
    revert hlabel
    decide +kernel
  · intro h
    have hnone : ∀ n, renamed.element n = .action →
        (renamed.node n).label ≠ some ((renamed.node ⟨2⟩).label.getD "") := by
      rintro ⟨i⟩ hn
      by_cases hi : i < 3
      · have hall : ∀ i < 3, renamed.element ⟨i⟩ = .action →
            (renamed.node ⟨i⟩).label ≠ some ((renamed.node ⟨2⟩).label.getD "") := by
          decide +kernel
        exact hall i hi hn
      · have hout : ¬renamed.Has ⟨i⟩ := hi
        rw [element, node_of_not_has hout] at hn
        cases hn
    cases hfound.symm.trans (h _ renamed ⟨2⟩ .action labelled_renamed hr hnone)

end Barrage.Pattern

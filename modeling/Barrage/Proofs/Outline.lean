import Barrage.Proofs.Nesting

namespace Barrage

namespace Markup

/-- The tag with which an event begins an element. -/
def Event.tag? : Event → Option Tag
  | .opening tag | .empty tag => some tag
  | _ => none

/-- What an event adds to the text of the element around it. -/
def Event.text? : Event → Option String
  | .text raw => plainText? raw
  | .verbatim raw => some (Text.decodeLossy raw)
  | _ => none

def Tag.element? (tag : Tag) : Option Element :=
  Element.ofName? (Text.decodeLossy (localName tag.name))

/-- A place in a document: how many elements have begun before it, and those of them that it is in,
innermost first. Elements are numbered as they begin. -/
structure Place where
  begun : Nat
  within : List Nat
deriving DecidableEq

namespace Place

def start : Place := ⟨0, []⟩

/-- The place behind an event. -/
def next (here : Place) : Event → Place
  | .opening _ => ⟨here.begun + 1, here.begun :: here.within⟩
  | .empty _ => ⟨here.begun + 1, here.within⟩
  | .closing => ⟨here.begun, here.within.tail⟩
  | .text _ | .verbatim _ => here

end Place

def place (events : List Event) : Place := events.foldl .next .start

def placedFrom : Place → List Event → List (Place × Event)
  | _, [] => []
  | here, event :: events => (here, event) :: placedFrom (here.next event) events

/-- The events of a document, each with the place before it. -/
def placed (events : List Event) : List (Place × Event) := placedFrom .start events

/-- An element of a document: its number, the element that it stands in, and its tag. -/
structure Entry where
  number : Nat
  parent : Option Nat
  tag : Tag
deriving DecidableEq

/-- The elements of a document in the order in which they begin. -/
def entries (events : List Event) : List Entry :=
  (placed events).filterMap fun (here, event) =>
    event.tag?.map (⟨here.begun, here.within.head?, ·⟩)

/-- The text that stands in an element and in none of those in it. -/
def textOf (events : List Event) (k : Nat) : String :=
  ((placed events).filterMap fun (here, event) =>
    if here.within.head? = some k then event.text? else none).foldl (· ++ ·) ""

/-- There is an end tag for the element. -/
def isClosed (events : List Event) (k : Nat) : Bool :=
  (placed events).any fun (here, event) => event == .closing && here.within.head? == some k

/-- The numbers of the elements that stand directly in an element. -/
def childrenOf (events : List Event) (k : Nat) : List Nat :=
  ((entries events).filter (·.parent == some k)).map Entry.number

section Snoc

variable (events : List Event) (event : Event) (k : Nat)

theorem place_snoc : place (events ++ [event]) = (place events).next event := by
  rw [place, List.foldl_append]
  rfl

theorem placedFrom_append (here : Place) (more : List Event) :
    placedFrom here (events ++ more) =
      placedFrom here events ++ placedFrom (events.foldl .next here) more := by
  induction events generalizing here with
  | nil => rfl
  | cons e events ih =>
    rw [List.cons_append, placedFrom, ih, placedFrom, List.cons_append, List.foldl_cons]

theorem placed_snoc : placed (events ++ [event]) = placed events ++ [(place events, event)] :=
  placedFrom_append events .start [event]

theorem entries_snoc : entries (events ++ [event]) = entries events ++
    (event.tag?.map (⟨(place events).begun, (place events).within.head?, ·⟩)).toList := by
  rw [entries, placed_snoc, List.filterMap_append]
  cases ht : event.tag? <;> simp [entries, ht]

theorem textOf_snoc : textOf (events ++ [event]) k =
    if (place events).within.head? = some k then textOf events k ++ event.text?.getD ""
    else textOf events k := by
  rw [textOf, placed_snoc, List.filterMap_append, List.foldl_append]
  by_cases hk : (place events).within.head? = some k
  · rw [if_pos hk]
    cases ht : event.text? with
    | none => simp [hk, ht, textOf]
    | some text => simp [hk, ht, textOf]
  · simp [hk, textOf]

theorem isClosed_snoc : isClosed (events ++ [event]) k =
    (isClosed events k || (event == .closing && (place events).within.head? == some k)) := by
  rw [isClosed, placed_snoc, List.any_append]
  simp [isClosed]

theorem childrenOf_snoc : childrenOf (events ++ [event]) k = childrenOf events k ++
    if event.tag?.isSome && (place events).within.head? == some k then [(place events).begun]
    else [] := by
  rw [childrenOf, entries_snoc, List.filter_append, List.map_append]
  cases ht : event.tag? with
  | none => simp [childrenOf]
  | some tag =>
    cases hk : (place events).within.head? == some k <;> simp [childrenOf, hk]

end Snoc

/-- What is known of the places of a document: the elements are numbered in their order, and an
element that was closed is not open. -/
structure Place.Sound (events : List Event) (here : Place) : Prop where
  numbers : (entries events).map Entry.number = List.range here.begun
  begun : ∀ k ∈ here.within, k < here.begun
  nested : here.within.Pairwise (· > ·)
  parents : ∀ x ∈ entries events, ∀ k, x.parent = some k → k < x.number
  closed : ∀ k, isClosed events k = true → k < here.begun ∧ k ∉ here.within

theorem Place.Sound.next {events : List Event} (h : (place events).Sound events)
    (event : Event) : ((place events).next event).Sound (events ++ [event]) := by
  have hparents (hx : ∀ x ∈ (event.tag?.map fun tag =>
      (⟨(place events).begun, (place events).within.head?, tag⟩ : Entry)).toList,
      ∀ k, x.parent = some k → k < x.number) :
      ∀ x ∈ entries (events ++ [event]), ∀ k, x.parent = some k → k < x.number := by
    intro x hm
    rw [entries_snoc] at hm
    exact (List.mem_append.1 hm).elim (h.parents x) (hx x)
  have hhead (k : Nat) (hk : (place events).within.head? = some k) : k < (place events).begun :=
    h.begun k (List.mem_of_mem_head? hk)
  cases event with
  | opening tag =>
    refine ⟨?_, ?_, ?_, hparents ?_, ?_⟩
    · rw [entries_snoc, List.map_append, h.numbers]
      exact List.range_succ.symm
    · intro k hk
      rcases List.mem_cons.1 hk with rfl | hk
      · exact Nat.lt_succ_self _
      · exact Nat.lt_succ_of_lt (h.begun k hk)
    · exact List.pairwise_cons.2 ⟨h.begun, h.nested⟩
    · simpa [Event.tag?] using hhead
    · intro k hc
      rw [isClosed_snoc] at hc
      obtain ⟨hlt, hout⟩ := h.closed k (by simpa using hc)
      exact ⟨Nat.lt_succ_of_lt hlt, by simpa [Place.next, hout] using Nat.ne_of_lt hlt⟩
  | empty tag =>
    refine ⟨?_, ?_, h.nested, hparents ?_, ?_⟩
    · rw [entries_snoc, List.map_append, h.numbers]
      exact List.range_succ.symm
    · exact fun k hk => Nat.lt_succ_of_lt (h.begun k hk)
    · simpa [Event.tag?] using hhead
    · intro k hc
      rw [isClosed_snoc] at hc
      obtain ⟨hlt, hout⟩ := h.closed k (by simpa using hc)
      exact ⟨Nat.lt_succ_of_lt hlt, hout⟩
  | closing =>
    refine ⟨?_, ?_, h.nested.tail, hparents (by simp [Event.tag?]), ?_⟩
    · simpa [entries_snoc, Event.tag?, Place.next] using h.numbers
    · exact fun k hk => h.begun k (List.mem_of_mem_tail hk)
    · intro k hc
      rw [isClosed_snoc, Bool.or_eq_true] at hc
      rcases hc with hc | hc
      · obtain ⟨hlt, hout⟩ := h.closed k hc
        exact ⟨hlt, fun hk => hout (List.mem_of_mem_tail hk)⟩
      · have hk : (place events).within.head? = some k := by simpa using hc
        refine ⟨hhead k hk, ?_⟩
        have hn := h.nested
        obtain ⟨outer, ho⟩ := List.head?_eq_some_iff.1 hk
        rw [ho] at hn
        simp only [Place.next, ho, List.tail_cons]
        exact fun hin => Nat.lt_irrefl k ((List.pairwise_cons.1 hn).1 k hin)
  | text raw =>
    refine ⟨?_, h.begun, h.nested, hparents (by simp [Event.tag?]), ?_⟩
    · simpa [entries_snoc, Event.tag?, Place.next] using h.numbers
    · intro k hc
      exact h.closed k (by simpa [isClosed_snoc] using hc)
  | verbatim raw =>
    refine ⟨?_, h.begun, h.nested, hparents (by simp [Event.tag?]), ?_⟩
    · simpa [entries_snoc, Event.tag?, Place.next] using h.numbers
    · intro k hc
      exact h.closed k (by simpa [isClosed_snoc] using hc)

theorem sound_place (events : List Event) : (place events).Sound events := by
  induction events using List.reverseRecOn with
  | nil => exact ⟨rfl, nofun, .nil, nofun, nofun⟩
  | append_singleton events event ih =>
    rw [place_snoc]
    exact ih.next event

section Entries

variable {events : List Event} {event : Event}

theorem begun_of_tag {tag : Tag} (ht : event.tag? = some tag) :
    (place (events ++ [event])).begun = (place events).begun + 1 := by
  rw [place_snoc]
  cases event <;> first | rfl | cases ht

theorem entries_of_tag {tag : Tag} (ht : event.tag? = some tag) : entries (events ++ [event]) =
    entries events ++ [⟨(place events).begun, (place events).within.head?, tag⟩] := by
  rw [entries_snoc, ht]
  rfl

theorem Entry.number_lt {x : Entry} (hx : x ∈ entries events) :
    x.number < (place events).begun := by
  rw [← List.mem_range, ← (sound_place events).numbers]
  exact List.mem_map_of_mem hx

theorem exists_entry {k : Nat} (hk : k < (place events).begun) :
    ∃ x ∈ entries events, x.number = k := by
  rw [← List.mem_map, (sound_place events).numbers]
  exact List.mem_range.2 hk

theorem mem_childrenOf {k j : Nat} :
    j ∈ childrenOf events k ↔ ∃ x ∈ entries events, x.parent = some k ∧ x.number = j := by
  simp [childrenOf, and_assoc]

theorem childrenOf_increasing (k : Nat) : (childrenOf events k).Pairwise (· < ·) := by
  have hsub : (childrenOf events k).Sublist (List.range (place events).begun) := by
    rw [← (sound_place events).numbers]
    exact List.filter_sublist.map _
  exact List.pairwise_lt_range.sublist hsub

/-- No text stands in an element that has not begun. -/
theorem textOf_of_le {k : Nat} (h : (place events).begun ≤ k) :
    textOf events k = "" := by
  induction events using List.reverseRecOn with
  | nil => rfl
  | append_singleton events event ih =>
    have hle : (place events).begun ≤ k := by
      rw [place_snoc] at h
      cases event <;> simp only [Place.next] at h <;> omega
    rw [textOf_snoc, if_neg, ih hle]
    intro hk
    exact Nat.not_lt.2 hle ((sound_place events).begun k (List.mem_of_mem_head? hk))

/-- No element stands in one that has not begun. -/
theorem childrenOf_of_le {k : Nat} (h : (place events).begun ≤ k) :
    childrenOf events k = [] := by
  have hs := sound_place events
  rw [childrenOf, List.map_eq_nil_iff, List.filter_eq_nil_iff]
  intro x hx hk
  have hparent := hs.parents x hx k (by simpa using hk)
  have hnumber := Entry.number_lt hx
  omega

end Entries

end Markup
end Barrage

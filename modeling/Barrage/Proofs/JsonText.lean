import Barrage.Proofs.JsonScalars
import Mathlib.Data.List.Forall2

namespace Barrage.Json
open Barrage.Expr (dropWhile_run)

variable {cs rest before w : List Char} {c : Char} {n : Numeral} {fuel : Nat}

section Lines

/-- Lines with the same space before each but the first. -/
def spread (w : List Char) : List String → List Char
  | [] => []
  | [line] => line.toList
  | line :: lines => line.toList ++ ('\n' :: w) ++ spread w lines

theorem spread_cons {lines : List String} (h : lines ≠ []) (w : List Char) (line : String) :
    spread w (line :: lines) = line.toList ++ ('\n' :: w) ++ spread w lines := by
  cases lines with
  | nil => exact absurd rfl h
  | cons => rfl

theorem toList_render_lines (v : Json) : v.render.toList = spread [] v.lines := by
  have hlines (lines : List String) :
      ['\n'].intercalate (lines.map String.toList) = spread [] lines := by
    induction lines with
    | nil => rfl
    | cons line lines ih =>
      cases lines with
      | nil => exact List.append_nil _
      | cons next lines =>
        rw [List.map_cons, List.map_cons, List.intercalate_cons_cons, ← List.map_cons, ih]
        rfl
  rw [render, String.toList_intercalate]
  exact hlines v.lines

theorem spread_append {a b : List String} (ha : a ≠ []) (hb : b ≠ []) (w : List Char) :
    spread w (a ++ b) = spread w a ++ ('\n' :: w) ++ spread w b := by
  induction a with
  | nil => exact absurd rfl ha
  | cons line a ih =>
    cases a with
    | nil => exact spread_cons hb w line
    | cons next a =>
      rw [List.cons_append, spread_cons (by simp) w line, ih (List.cons_ne_nil _ _),
        spread_cons (List.cons_ne_nil _ _) w line]
      simp only [List.append_assoc]

theorem spread_indent {lines : List String} (h : lines ≠ []) (w : List Char) :
    spread w (lines.map ("  " ++ ·)) = ' ' :: ' ' :: spread (w ++ [' ', ' ']) lines := by
  have htwo (line : String) : ("  " ++ line).toList = ' ' :: ' ' :: line.toList := by
    rw [String.toList_append]
    rfl
  induction lines with
  | nil => exact absurd rfl h
  | cons line lines ih =>
    cases lines with
    | nil => exact htwo line
    | cons next lines =>
      rw [List.map_cons, spread_cons (by simp), ih (List.cons_ne_nil _ _), htwo,
        spread_cons (List.cons_ne_nil _ _)]
      simp only [List.cons_append, List.append_assoc, List.nil_append]

theorem spread_withComma {lines : List String} (h : lines ≠ []) (w : List Char) :
    spread w (withComma lines) = spread w lines ++ [','] := by
  induction lines with
  | nil => exact absurd rfl h
  | cons line lines ih =>
    cases lines with
    | nil => exact String.toList_append
    | cons next lines =>
      have hne : withComma (next :: lines) ≠ [] := by
        cases lines with
        | nil => exact List.cons_ne_nil _ _
        | cons => exact List.cons_ne_nil _ _
      rw [withComma, spread_cons hne, ih (List.cons_ne_nil _ _), spread_cons (List.cons_ne_nil _ _)]
      simp only [List.append_assoc]
      exact List.cons_ne_nil _ _

theorem spread_withLabel {lines : List String} (h : lines ≠ []) (w : List Char)
    (label : String) : spread w (withLabel label lines) = label.toList ++ spread w lines := by
  obtain ⟨line, lines, rfl⟩ := List.exists_cons_of_ne_nil h
  cases lines with
  | nil => exact String.toList_append
  | cons next lines =>
    rw [withLabel, spread_cons (List.cons_ne_nil _ _), spread_cons (List.cons_ne_nil _ _),
      String.toList_append]
    simp only [List.append_assoc]

/-- Groups of lines with commas between them. -/
def listed : List (List String) → List String
  | [] => []
  | [group] => group
  | group :: groups => withComma group ++ listed groups

theorem listed_cons {groups : List (List String)} (h : groups ≠ []) (group : List String) :
    listed (group :: groups) = withComma group ++ listed groups := by
  cases groups with
  | nil => exact absurd rfl h
  | cons => rfl

theorem listed_concat (groups : List (List String)) (last : List String) :
    listed (groups ++ [last]) = (groups.map withComma ++ [last]).flatten := by
  induction groups with
  | nil => exact (List.append_nil last).symm
  | cons group groups ih =>
    rw [List.cons_append, listed_cons (by simp), ih]
    rfl

theorem bracketed_eq {groups : List (List String)} (h : groups ≠ []) (opening closing : String) :
    bracketed opening closing groups =
      [opening] ++ (listed groups).map ("  " ++ ·) ++ [closing] := by
  obtain ⟨before, last, rfl⟩ := (List.eq_nil_or_concat' groups).resolve_left h
  rw [bracketed, List.reverse_append, listed_concat]
  simp only [List.reverse_singleton, List.singleton_append, List.reverse_reverse]

theorem withComma_ne_nil {lines : List String} (h : lines ≠ []) : withComma lines ≠ [] := by
  obtain ⟨line, lines, rfl⟩ := List.exists_cons_of_ne_nil h
  cases lines with
  | nil => exact List.cons_ne_nil _ _
  | cons => exact List.cons_ne_nil _ _

theorem listed_ne_nil {groups : List (List String)} (h : groups ≠ [])
    (hg : ∀ group ∈ groups, group ≠ []) : listed groups ≠ [] := by
  obtain ⟨group, groups, rfl⟩ := List.exists_cons_of_ne_nil h
  obtain ⟨hfirst, _⟩ := List.forall_mem_cons.1 hg
  cases groups with
  | nil => exact hfirst
  | cons next groups => exact List.append_ne_nil_of_left_ne_nil (withComma_ne_nil hfirst) _

theorem spread_listed {groups : List (List String)} (h : groups ≠ [])
    (hg : ∀ group ∈ groups, group ≠ []) {group : List String} (hf : group ≠ []) (w : List Char) :
    spread w (listed (group :: groups)) =
      spread w group ++ (',' :: '\n' :: w) ++ spread w (listed groups) := by
  rw [listed_cons h, spread_append (withComma_ne_nil hf) (listed_ne_nil h hg),
    spread_withComma hf]
  simp only [List.append_assoc, List.cons_append, List.nil_append]

theorem spread_bracketed {groups : List (List String)} (h : groups ≠ [])
    (hg : ∀ group ∈ groups, group ≠ []) (opening closing : String) (w : List Char) :
    spread w (bracketed opening closing groups) =
      opening.toList ++ ('\n' :: (w ++ [' ', ' '])) ++ spread (w ++ [' ', ' ']) (listed groups) ++
        ('\n' :: w) ++ closing.toList := by
  have hne := listed_ne_nil h hg
  rw [bracketed_eq h, spread_append (by simp) (by simp), spread_append (by simp) (by simpa),
    spread_indent hne]
  simp only [spread, List.append_assoc, List.cons_append, List.nil_append]

theorem length_spread_le {groups : List (List String)} (hg : ∀ group ∈ groups, group ≠ [])
    {group : List String} (h : group ∈ groups) (w : List Char) :
    (spread w group).length ≤ (spread w (listed groups)).length := by
  induction groups with
  | nil => cases h
  | cons first groups ih =>
    obtain ⟨hfirst, hrest⟩ := List.forall_mem_cons.1 hg
    by_cases hne : groups = []
    · subst hne
      rw [List.mem_singleton.1 h]
      exact Nat.le_refl _
    · rw [spread_listed hne hrest hfirst, List.length_append, List.length_append]
      rcases List.mem_cons.1 h with rfl | h
      · omega
      · have := ih hrest h
        omega

theorem length_spread_lt {groups : List (List String)} (hg : ∀ group ∈ groups, group ≠ [])
    {group : List String} (h : group ∈ groups) (opening closing : String) (w : List Char) :
    (spread (w ++ [' ', ' ']) group).length <
      (spread w (bracketed opening closing groups)).length := by
  have hle := length_spread_le hg h (w ++ [' ', ' '])
  rw [spread_bracketed (List.ne_nil_of_mem h) hg]
  simp only [List.length_append, List.length_cons] at hle ⊢
  omega

end Lines

section Values

/-- Spaces and line ends only. -/
def Blank (w : List Char) : Prop := ∀ c ∈ w, isSpace c = true

theorem Blank.indent (hw : Blank w) : Blank (w ++ [' ', ' ']) :=
  List.forall_mem_append.2 ⟨hw, List.forall_mem_cons.2 ⟨rfl, List.forall_mem_singleton.2 rfl⟩⟩

theorem Blank.line (hw : Blank w) : Blank ('\n' :: w) := List.forall_mem_cons.2 ⟨rfl, hw⟩

theorem skipSpace_blank (hw : Blank w) (hc : isSpace c = false) (cs : List Char) :
    skipSpace (w ++ c :: cs) = c :: cs := by
  apply dropWhile_run hw
  rintro c ⟨⟩
  exact hc

theorem skipSpace_cons (hc : isSpace c = false) (cs : List Char) :
    skipSpace (c :: cs) = c :: cs :=
  skipSpace_blank (List.forall_mem_nil _) hc cs

variable {α : Type} {item : List Char → Option (α × List Char)} {close : Char}

/-- However it is indented, the item is read from its lines. -/
def ReadsAs (item : List Char → Option (α × List Char)) (w : List Char) (a : α)
    (lines : List String) : Prop :=
  ∀ before rest, Blank before → Stops rest →
    item (before ++ spread w lines ++ rest) = some (a, rest)

theorem items?_comma {a : α} (h : item cs = some (a, ',' :: rest)) {as : List α}
    {rest' : List Char} (hr : items? item close fuel rest = some (as, rest')) :
    items? item close (fuel + 1) cs = some (a :: as, rest') := by
  have hcomma : skipSpace (',' :: rest) = ',' :: rest := rfl
  simp only [items?, h, Option.bind_eq_bind, Option.bind_some, hcomma, hr]

theorem items?_close {a : α} {rest' : List Char} (hcomma : close ≠ ',')
    (h : item cs = some (a, rest)) (hr : skipSpace rest = close :: rest') :
    items? item close (fuel + 1) cs = some ([a], rest') := by
  simp only [items?, h, Option.bind_eq_bind, Option.bind_some, hr]
  rw [if_pos (beq_self_eq_true _)]

theorem items?_listed {as : List α} {groups : List (List String)} (hw : Blank w)
    (hc : isSpace close = false) (hcomma : close ≠ ',')
    (h : List.Forall₂ (ReadsAs item w) as groups) (hne : groups ≠ [])
    (hg : ∀ group ∈ groups, group ≠ []) (hf : as.length ≤ fuel) {v : List Char} (hv : Blank v)
    (hb : Blank before) (rest : List Char) :
    items? item close fuel
      (before ++ spread w (listed groups) ++ ('\n' :: v) ++ close :: rest) = some (as, rest) := by
  induction h generalizing fuel before with
  | nil => exact absurd rfl hne
  | @cons a group as groups ha h ih =>
    obtain ⟨hfirst, hrest⟩ := List.forall_mem_cons.1 hg
    obtain ⟨fuel, rfl⟩ := Nat.exists_eq_add_of_le' (Nat.le_trans (Nat.le_add_left 1 _) hf)
    by_cases hlast : groups = []
    · subst hlast
      cases h
      have hread := ha before _ hb (stops_line (v ++ close :: rest))
      rw [← List.cons_append, ← List.append_assoc] at hread
      exact items?_close hcomma hread (skipSpace_blank hv.line hc rest)
    · -- The line end behind the comma belongs to the next item, as the space before it.
      have hread := ha before _ hb
        (stops_comma ('\n' :: w ++ spread w (listed groups) ++ '\n' :: v ++ close :: rest))
      have hmore := ih hlast hrest (Nat.le_of_succ_le_succ hf) hw.line
      rw [spread_listed hlast hrest hfirst]
      simp only [List.append_assoc, List.cons_append] at hread hmore ⊢
      exact items?_comma hread hmore

/-- The lines begin with what is neither space nor a closing bracket. -/
def Opens (lines : List String) : Prop :=
  ∃ c line rest cs, lines = line :: rest ∧ line.toList = c :: cs ∧ isSpace c = false ∧
    c ≠ ']' ∧ c ≠ '\x7d'

theorem Opens.ne_nil {lines : List String} (h : Opens lines) : lines ≠ [] := by
  obtain ⟨_, _, _, _, rfl, _⟩ := h
  exact List.cons_ne_nil _ _

theorem Opens.spread {lines : List String} (h : Opens lines) (w : List Char) :
    ∃ c cs, spread w lines = c :: cs ∧ isSpace c = false ∧ c ≠ ']' ∧ c ≠ '\x7d' := by
  obtain ⟨c, line, rest, cs, rfl, hline, hc⟩ := h
  cases rest with
  | nil => exact ⟨c, cs, hline, hc⟩
  | cons next rest =>
    refine ⟨c, cs ++ ('\n' :: w) ++ Json.spread w (next :: rest), ?_, hc⟩
    rw [Json.spread, hline]
    · rfl
    · exact List.cons_ne_nil _ _

theorem Opens.listed {groups : List (List String)} (hne : groups ≠ [])
    (hg : ∀ group ∈ groups, Opens group) (w : List Char) :
    ∃ c cs, Json.spread w (listed groups) = c :: cs ∧ isSpace c = false ∧ c ≠ ']' ∧
      c ≠ '\x7d' := by
  obtain ⟨group, groups, rfl⟩ := List.exists_cons_of_ne_nil hne
  obtain ⟨hfirst, hrest⟩ := List.forall_mem_cons.1 hg
  obtain ⟨c, cs, hspread, hc⟩ := hfirst.spread w
  by_cases hlast : groups = []
  · subst hlast
    exact ⟨c, cs, hspread, hc⟩
  · rw [spread_listed hlast (fun group hgroup => (hrest group hgroup).ne_nil) hfirst.ne_nil,
      hspread]
    exact ⟨c, _, rfl, hc⟩

theorem length_le_spread {groups : List (List String)} (hg : ∀ group ∈ groups, Opens group)
    (w : List Char) : groups.length ≤ (spread w (listed groups)).length := by
  induction groups with
  | nil => exact Nat.zero_le _
  | cons group groups ih =>
    obtain ⟨hfirst, hrest⟩ := List.forall_mem_cons.1 hg
    obtain ⟨c, cs, hspread, _⟩ := hfirst.spread w
    by_cases hne : groups = []
    · subst hne
      rw [listed, hspread]
      exact Nat.le_add_left _ _
    · rw [spread_listed hne (fun group hgroup => (hrest group hgroup).ne_nil) hfirst.ne_nil,
        hspread]
      have hle := ih hrest
      simp only [List.length_append, List.length_cons]
      omega

theorem length_spread_pos {lines : List String} (h : Opens lines) (w : List Char) :
    0 < (spread w lines).length := by
  obtain ⟨c, cs, hspread, _⟩ := h.spread w
  rw [hspread]
  exact Nat.succ_pos _

theorem enclosed?_close (hc : isSpace close = false) (rest : List Char) :
    enclosed? item close (close :: rest) = some ([], rest) := by
  simp only [enclosed?, skipSpace_cons hc, beq_self_eq_true, if_true]

theorem enclosed?_items (hs : skipSpace cs = c :: rest) (hc : c ≠ close) :
    enclosed? item close cs = items? item close cs.length cs := by
  simp only [enclosed?, hs, beq_eq_false_iff_ne.2 hc, Bool.false_eq_true, if_false]

/-- The character is a closing bracket. -/
def Closes (c : Char) : Prop := c = ']' ∨ c = '\x7d'

theorem Closes.isSpace (h : Closes c) : isSpace c = false := by
  rcases h with rfl | rfl
  · rfl
  · rfl

theorem Closes.ne_comma (h : Closes c) : c ≠ ',' := by
  rcases h with rfl | rfl
  · decide
  · decide

theorem Closes.ne (h : Closes close) (hsquare : c ≠ ']') (hcurly : c ≠ '\x7d') : c ≠ close := by
  rcases h with rfl | rfl
  · exact hsquare
  · exact hcurly

theorem enclosed?_listed {as : List α} {groups : List (List String)} (hclose : Closes close)
    (h : List.Forall₂ (ReadsAs item w) as groups) (hne : groups ≠ [])
    (hg : ∀ group ∈ groups, Opens group) (hw : Blank w) {v : List Char} (hv : Blank v)
    (rest : List Char) :
    enclosed? item close
      (('\n' :: w) ++ spread w (listed groups) ++ ('\n' :: v) ++ close :: rest) =
        some (as, rest) := by
  obtain ⟨c, cs, hspread, hc, hsquare, hcurly⟩ := Opens.listed hne hg w
  have hskip : skipSpace (('\n' :: w) ++ spread w (listed groups) ++ ('\n' :: v) ++ close :: rest) =
      c :: (cs ++ (('\n' :: v) ++ close :: rest)) := by
    rw [hspread, List.append_assoc, List.append_assoc]
    exact skipSpace_blank hw.line hc _
  rw [enclosed?_items hskip (hclose.ne hsquare hcurly)]
  apply items?_listed hw hclose.isSpace hclose.ne_comma h hne
    (fun group hgroup => (hg group hgroup).ne_nil) _ hv hw.line
  have hlength := length_le_spread hg w
  rw [← h.length_eq] at hlength
  simp only [List.length_append]
  omega

/-- What stands between brackets is read item by item, and nothing behind them. -/
theorem enclosed?_bracketed {as : List α} {lines : α → List String} (opening : String)
    {closing : String} (hclosing : closing.toList = [close]) (hclose : Closes close)
    (ho : ∀ a ∈ as, Opens (lines a)) (hw : Blank w)
    (h : ∀ a ∈ as, ReadsAs item (w ++ [' ', ' ']) a (lines a)) :
    ∃ text, spread w (bracketed opening closing (as.map lines)) = opening.toList ++ text ∧
      ∀ rest, enclosed? item close (text ++ rest) = some (as, rest) := by
  by_cases hne : as.map lines = []
  · rw [hne, List.map_eq_nil_iff.1 hne]
    refine ⟨[close], ?_, enclosed?_close hclose.isSpace⟩
    rw [← hclosing]
    exact String.toList_append
  · have hgroups : ∀ group ∈ as.map lines, Opens group := List.forall_mem_map.2 ho
    have hreads : List.Forall₂ (ReadsAs item (w ++ [' ', ' '])) as (as.map lines) :=
      List.forall₂_map_right_iff.2 (List.forall₂_same.2 h)
    rw [spread_bracketed hne (fun group hgroup => (hgroups group hgroup).ne_nil), hclosing]
    simp only [List.append_assoc]
    refine ⟨_, rfl, ?_⟩
    intro rest
    have hread := enclosed?_listed hclose hreads hne hgroups hw.indent hw rest
    simp only [List.append_assoc, List.cons_append, List.nil_append] at hread ⊢
    exact hread

theorem value?_blank (hb : Blank before) (hc : isSpace c = false) (fuel : Nat) (cs : List Char) :
    value? (fuel + 1) (before ++ c :: cs) = value? (fuel + 1) (c :: cs) := by
  rw [value?.eq_2, value?.eq_2, skipSpace_blank hb hc, skipSpace_cons hc]

theorem reads_bracketed {as : List α} {lines : α → List String} {opening closing : String}
    {wrap : List α → Json} (hopen : opening.toList = [c]) (hc : isSpace c = false)
    (hclosing : closing.toList = [close]) (hclose : Closes close)
    (ho : ∀ a ∈ as, Opens (lines a)) (hw : Blank w)
    (hvalue : ∀ cs, value? (fuel + 1) (c :: cs) =
      (enclosed? item close cs).map fun x => (wrap x.1, x.2))
    (h : ∀ a ∈ as, ReadsAs item (w ++ [' ', ' ']) a (lines a)) :
    ReadsAs (value? (fuel + 1)) w (wrap as) (bracketed opening closing (as.map lines)) := by
  intro before rest hb _
  obtain ⟨text, hspread, hread⟩ := enclosed?_bracketed opening hclosing hclose ho hw h
  rw [hspread, hopen, List.append_assoc, List.singleton_append, List.cons_append,
    value?_blank hb hc, hvalue, hread, Option.map_some]

/-- The value can be written and read again. -/
inductive IsWritten : Json → Prop where
  | null : IsWritten .null
  | bool (value : Bool) : IsWritten (.bool value)
  | number {n : Numeral} (h : n.IsWritten) : IsWritten (.number n)
  | string (text : String) : IsWritten (.string (some text))
  | array {items : List Json} (h : ∀ v ∈ items, IsWritten v) : IsWritten (.array items)
  | object {members : List (Option String × Json)} (hk : ∀ m ∈ members, m.1.isSome = true)
      (h : ∀ m ∈ members, IsWritten m.2) : IsWritten (.object members)

theorem itemLines_eq (items : List Json) : itemLines items = items.map lines := by
  induction items with
  | nil => rfl
  | cons v items ih => rw [itemLines, ih, List.map_cons]

theorem memberLines_eq (members : List (Option String × Json)) :
    memberLines members = members.map fun m => withLabel (quote? m.1 ++ ": ") m.2.lines := by
  induction members with
  | nil => rfl
  | cons m members ih => rw [memberLines, ih, List.map_cons]

/-- A number begins with a digit or a minus. -/
def BeginsNumber (c : Char) : Prop := c.isDigit = true ∨ c = '-'

theorem BeginsNumber.ne (h : BeginsNumber c) {x : Char} (hx : x.isDigit = false) (hm : x ≠ '-') :
    c ≠ x := by
  rintro rfl
  rcases h with h | h
  · rw [hx] at h
    cases h
  · exact hm h

theorem BeginsNumber.isSpace (h : BeginsNumber c) : isSpace c = false := by
  simp only [Json.isSpace, Bool.or_eq_false_iff, beq_eq_false_iff_ne]
  exact ⟨⟨⟨h.ne rfl (by decide), h.ne rfl (by decide)⟩, h.ne rfl (by decide)⟩,
    h.ne rfl (by decide)⟩

theorem render_begins (h : n.IsWritten) :
    ∃ c cs, n.render.toList = c :: cs ∧ BeginsNumber c := by
  rw [toList_render]
  cases n.negative with
  | true => exact ⟨'-', _, rfl, .inr rfl⟩
  | false =>
    obtain ⟨d, ds, hwhole⟩ := List.exists_cons_of_ne_nil h.whole
    have hd := h.digits d (List.mem_append_left _ (hwhole ▸ List.mem_cons_self))
    rw [hwhole]
    exact ⟨d, _, rfl, .inl hd⟩

theorem value?_number (hc : BeginsNumber c) :
    value? (fuel + 1) (c :: cs) = (numeral? (c :: cs)).map fun x => (.number x.1, x.2) := by
  rw [value?.eq_2, skipSpace_cons hc.isSpace]
  split
  case h_7 => rfl
  all_goals
    next heq => exact absurd (List.cons.inj heq).1 (hc.ne rfl (by decide))

theorem opens_bracketed {opening : String} (ho : opening.toList = [c]) (hs : isSpace c = false)
    (hc : c ≠ ']' ∧ c ≠ '\x7d') (closing : String) (groups : List (List String)) :
    Opens (bracketed opening closing groups) := by
  unfold bracketed
  split
  · exact ⟨c, _, _, closing.toList, rfl, by rw [String.toList_append, ho]; rfl, hs, hc⟩
  · exact ⟨c, _, _, [], rfl, ho, hs, hc⟩

theorem IsWritten.opens {v : Json} (h : v.IsWritten) : Opens v.lines := by
  cases h with
  | null => exact ⟨_, _, _, _, rfl, rfl, rfl, by decide, by decide⟩
  | bool value =>
    cases value with
    | true => exact ⟨_, _, _, _, rfl, rfl, rfl, by decide, by decide⟩
    | false => exact ⟨_, _, _, _, rfl, rfl, rfl, by decide, by decide⟩
  | number h =>
    obtain ⟨c, cs, htext, hc⟩ := render_begins h
    exact ⟨c, _, _, cs, rfl, htext, hc.isSpace, hc.ne rfl (by decide), hc.ne rfl (by decide)⟩
  | string text => exact ⟨_, _, _, _, rfl, toList_quote text, rfl, by decide, by decide⟩
  | array => exact opens_bracketed rfl rfl ⟨by decide, by decide⟩ _ _
  | object => exact opens_bracketed rfl rfl ⟨by decide, by decide⟩ _ _

theorem opens_member {m : Option String × Json} (hk : m.1.isSome = true) (h : m.2.IsWritten) :
    Opens (withLabel (quote? m.1 ++ ": ") m.2.lines) := by
  obtain ⟨key, hkey⟩ := Option.isSome_iff_exists.1 hk
  obtain ⟨line, rest, hlines⟩ := List.exists_cons_of_ne_nil h.opens.ne_nil
  have hline : (quote key ++ ": " ++ line).toList =
      '\x22' :: (key.toList.flatMap escapeChar ++ ['\x22'] ++ ": ".toList ++ line.toList) := by
    rw [String.toList_append, String.toList_append, toList_quote]
    rfl
  rw [hkey, hlines]
  exact ⟨_, _, _, _, rfl, hline, rfl, by decide, by decide⟩

/-- A key and its value, read by whatever reads the value. -/
theorem member?_reads {value : List Char → Option (Json × List Char)} (key : String) {v : Json}
    {lines : List String} (hne : lines ≠ []) (h : ReadsAs value w v lines) :
    ReadsAs (member? value) w (some key, v) (withLabel (quote key ++ ": ") lines) := by
  intro before rest hb hs
  have hvalue := h [' '] rest (List.forall_mem_singleton.2 rfl) hs
  have htext : before ++ spread w (withLabel (quote key ++ ": ") lines) ++ rest =
      before ++ '\x22' :: (key.toList.flatMap escapeChar ++
        '\x22' :: ':' :: ([' '] ++ spread w lines ++ rest)) := by
    rw [spread_withLabel hne, String.toList_append, toList_quote]
    simp only [List.append_assoc, List.cons_append, List.nil_append]
    rfl
  have hcolon (cs : List Char) : skipSpace (':' :: cs) = ':' :: cs := rfl
  rw [htext, member?, skipSpace_blank hb rfl]
  simp only [string?_quote, Option.bind_eq_bind, Option.bind_some, hcolon, hvalue]

theorem reads_number (h : n.IsWritten) (w : List Char) (fuel : Nat) :
    ReadsAs (value? (fuel + 1)) w (.number n) [n.render] := by
  intro before rest hb hs
  obtain ⟨c, cs, htext, hc⟩ := render_begins h
  have hread := numeral?_render h hs
  rw [spread, List.append_assoc]
  rw [htext, List.cons_append] at hread ⊢
  rw [value?_blank hb hc.isSpace, value?_number hc, hread]
  rfl

theorem reads_string (text : String) (w : List Char) (fuel : Nat) :
    ReadsAs (value? (fuel + 1)) w (.string (some text)) [quote text] := by
  intro before rest hb hs
  rw [spread, toList_quote, List.append_assoc, List.cons_append, List.append_assoc,
    value?_blank hb rfl]
  exact congrArg (Option.map fun x => (Json.string x.1, x.2)) (string?_quote text rest)

/-- Whatever can be written is read from its lines, however far they are indented. -/
theorem IsWritten.reads {v : Json} (h : v.IsWritten) (hw : Blank w)
    (hf : (spread w v.lines).length ≤ fuel) : ReadsAs (value? (fuel + 1)) w v v.lines := by
  -- The fuel only has to bound the nesting, and each level is shorter than the one around it.
  induction h generalizing w fuel with
  | null =>
    intro before rest hb hs
    rw [List.append_assoc]
    exact value?_blank hb rfl fuel _
  | bool value =>
    intro before rest hb hs
    rw [List.append_assoc]
    cases value with
    | true => exact value?_blank hb rfl fuel _
    | false => exact value?_blank hb rfl fuel _
  | number h => exact reads_number h w fuel
  | string text => exact reads_string text w fuel
  | @array items h ih =>
    have hpos := length_spread_pos (IsWritten.array h).opens w
    obtain ⟨fuel, rfl⟩ := Nat.exists_eq_add_of_le' (Nat.le_trans hpos hf)
    have hopens : ∀ v ∈ items, Opens v.lines := fun v hv => (h v hv).opens
    rw [lines, itemLines_eq] at hf ⊢
    apply reads_bracketed rfl rfl rfl (.inl rfl) hopens hw (fun _ => rfl)
    intro v hv
    apply ih v hv hw.indent
    have hlt := length_spread_lt (List.forall_mem_map.2 fun v hv => (hopens v hv).ne_nil)
      (List.mem_map_of_mem hv) "[" "]" w
    omega
  | @object members hk h ih =>
    have hpos := length_spread_pos (IsWritten.object hk h).opens w
    obtain ⟨fuel, rfl⟩ := Nat.exists_eq_add_of_le' (Nat.le_trans hpos hf)
    have hopens : ∀ m ∈ members, Opens (withLabel (quote? m.1 ++ ": ") m.2.lines) :=
      fun m hm => opens_member (hk m hm) (h m hm)
    rw [lines, memberLines_eq] at hf ⊢
    apply reads_bracketed rfl rfl rfl (.inr rfl) hopens hw (fun _ => rfl)
    rintro ⟨key, v⟩ hm
    obtain ⟨key, rfl⟩ := Option.isSome_iff_exists.1 (hk _ hm)
    have hne := (h _ hm).opens.ne_nil
    apply member?_reads key hne
    apply ih _ hm hw.indent
    have hlt := length_spread_lt (List.forall_mem_map.2 fun m hm => (hopens m hm).ne_nil)
      (List.mem_map_of_mem hm) "\x7b" "\x7d" w
    rw [spread_withLabel hne, List.length_append] at hlt
    omega

/-- A document reads back from its text. -/
theorem parse?_render {v : Json} (h : v.IsWritten) : parse? v.render = some v := by
  have hread := h.reads (List.forall_mem_nil _) (Nat.le_refl _) [] [] (List.forall_mem_nil _)
    stops_nil
  rw [List.nil_append, List.append_nil, ← toList_render_lines] at hread
  simp only [parse?, hread]
  rfl

end Values

end Barrage.Json

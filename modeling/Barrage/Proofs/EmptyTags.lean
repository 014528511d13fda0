import Barrage.Proofs.Scanning
import Barrage.Proofs.Shape

namespace Barrage

namespace Markup

variable {bs bs' rest gap content name : Bytes} {opened opened' : List Bytes} {depths : List Nat}

/-- The name in a tag. -/
def tagName (content : Bytes) : Bytes := content.takeWhile (!isSpace ·)

def tagOf (content : Bytes) : Tag := ⟨tagName content, content.dropWhile (!isSpace ·)⟩

/-- What stands between the `<` and the `/>` of an empty element. No name holds a quote, and the
slash that ends the tag is not one of two. -/
structure IsEmptyTag (content : Bytes) : Prop where
  whole : piece? (content ++ [0x2f, 0x3e]) = some (.tag (content ++ [0x2f]), [])
  start : (content ++ [0x2f]).head? ≠ some 0x2f
  single : content.getLast? ≠ some 0x2f
  unquoted : ∀ b ∈ tagName content, b ≠ 0x22 ∧ b ≠ 0x27

/-- One document is the other with any number of its empty elements, each `<x .../>`, written as
`<x ...></x>`. For each of these it says how many elements are open around it. -/
inductive Unfolds : List Bytes → Bytes → Bytes → List Nat → Prop where
  | same (opened : List Bytes) (bs : Bytes) : Unfolds opened bs bs []
  | keep {opened opened' : List Bytes} {gap body bs bs' : Bytes} {events : List Event}
      {depths : List Nat} (hg : IsGap gap) (hm : Marks opened body events opened')
      (h : Unfolds opened' bs bs' depths) :
      Unfolds opened (gap ++ 0x3c :: (body ++ bs)) (gap ++ 0x3c :: (body ++ bs')) depths
  | unfold {opened : List Bytes} {gap content bs bs' : Bytes} {depths : List Nat}
      (hg : IsGap gap) (ht : IsEmptyTag content) (h : Unfolds opened bs bs' depths) :
      Unfolds opened (gap ++ 0x3c :: (content ++ [0x2f, 0x3e] ++ bs))
        (gap ++ 0x3c :: (content ++ [0x3e] ++
          0x3c :: (0x2f :: (tagName content ++ [0x3e]) ++ bs'))) (opened.length :: depths)

section Tags

theorem quoteAfter_ne_slash {quote : Option UInt8} (hq : quote ≠ some 0x2f) (b : UInt8) :
    quoteAfter quote b ≠ some 0x2f := by
  unfold quoteAfter
  split
  · split
    · next hb =>
      intro heq
      cases heq
      exact absurd hb (by decide)
    · exact (Option.some_ne_none _).symm
  · split
    · exact (Option.some_ne_none _).symm
    · exact hq

/-- A tag ends just as well without the slash. -/
theorem tagContent?_of_slash {quote : Option UInt8} (hq : quote ≠ some 0x2f)
    (h : tagContent? quote (content ++ [0x2f, 0x3e]) = some (content ++ [0x2f], [])) :
    tagContent? quote (content ++ [0x3e]) = some (content, []) := by
  induction content generalizing quote with
  | nil =>
    cases quote with
    | none => rfl
    | some q =>
      have hslash : ((0x2f : UInt8) == q) = false := by
        rw [beq_eq_false_iff_ne]
        rintro rfl
        exact hq rfl
      rw [List.nil_append, tagContent?_cons fun heq => absurd heq (Option.some_ne_none q),
        quoteAfter, hslash] at h
      cases h
  | cons b content ih =>
    rcases tagContent?_cases h with ⟨-, -, hcontent⟩ | ⟨b', bs, content', hb, hbs, hcontent, hrest⟩
    · cases hcontent
    · cases hbs
      cases hcontent
      rw [List.cons_append, tagContent?_cons hb, ih (quoteAfter_ne_slash hq b) hrest]
      rfl

theorem quoteAfter_of_unquoted {b : UInt8} (hb : b ≠ 0x22 ∧ b ≠ 0x27) :
    quoteAfter none b = none := by
  simp only [quoteAfter, beq_eq_false_iff_ne.2 hb.1, beq_eq_false_iff_ne.2 hb.2, Bool.or_false,
    Bool.false_eq_true, if_false]

/-- Without quotes, nothing that ends a tag can stand in it. -/
theorem ne_end_of_unquoted (hn : ∀ b ∈ name, b ≠ 0x22 ∧ b ≠ 0x27)
    (h : tagContent? none (name ++ rest) = some (content, bs))
    (hle : name.length ≤ content.length) : ∀ b ∈ name, b ≠ 0x3e := by
  induction name generalizing content with
  | nil => exact List.forall_mem_nil _
  | cons b name ih =>
    obtain ⟨hfirst, hname⟩ := List.forall_mem_cons.1 hn
    rcases tagContent?_cases h with ⟨-, -, rfl⟩ | ⟨b', bs, content', hb, hbs, rfl, hrest⟩
    · cases hle
    · cases hbs
      rw [quoteAfter_of_unquoted hfirst] at hrest
      exact List.forall_mem_cons.2 ⟨hb rfl, ih hname hrest (Nat.le_of_succ_le_succ hle)⟩

theorem tagContent?_of_unquoted (hn : ∀ b ∈ name, b ≠ 0x22 ∧ b ≠ 0x27)
    (he : ∀ b ∈ name, b ≠ 0x3e) (rest : Bytes) :
    tagContent? none (name ++ 0x3e :: rest) = some (name, rest) := by
  induction name with
  | nil => rfl
  | cons b name ih =>
    obtain ⟨hfirst, hname⟩ := List.forall_mem_cons.1 hn
    obtain ⟨hb, hends⟩ := List.forall_mem_cons.1 he
    rw [List.cons_append, tagContent?_cons fun _ => hb, quoteAfter_of_unquoted hfirst,
      ih hname hends]
    rfl

theorem IsEmptyTag.cons (h : IsEmptyTag content) :
    ∃ b bs, content = b :: bs ∧ b ≠ 0x2f ∧ b ≠ 0x21 ∧ b ≠ 0x3f := by
  obtain ⟨hbang, hquestion, -⟩ := tagContent?_of_piece? h.whole
  cases content with
  | nil => exact absurd rfl h.start
  | cons b bs =>
    refine ⟨b, bs, rfl, ?_, ?_, ?_⟩
    · rintro rfl
      exact h.start rfl
    · rintro rfl
      exact hbang rfl
    · rintro rfl
      exact hquestion rfl

theorem tagEvent?_start {b : UInt8} (hb : b ≠ 0x2f) (bs : Bytes) (opened : List Bytes) :
    tagEvent? opened (b :: bs) =
      if (b :: bs).getLast? == some 0x2f then some (.empty (tagOf (b :: bs).dropLast), opened)
      else some (.opening (tagOf (b :: bs)), tagName (b :: bs) :: opened) := by
  unfold tagEvent?
  split
  · next heq =>
    cases heq
    exact absurd rfl hb
  · next heq =>
    cases heq
    exact absurd rfl hb
  · rfl

theorem IsEmptyTag.marks_empty (h : IsEmptyTag content) (opened : List Bytes) :
    Marks opened (content ++ [0x2f, 0x3e]) [.empty (tagOf content)] opened := by
  apply Marks.tag h.whole
  obtain ⟨b, bs, rfl, hb, -, -⟩ := h.cons
  rw [List.cons_append, tagEvent?_start hb, ← List.cons_append, List.getLast?_concat,
    if_pos (beq_self_eq_true _), List.dropLast_concat]

theorem IsEmptyTag.marks_opening (h : IsEmptyTag content) (opened : List Bytes) :
    Marks opened (content ++ [0x3e]) [.opening (tagOf content)] (tagName content :: opened) := by
  obtain ⟨-, -, htag⟩ := tagContent?_of_piece? h.whole
  have hlast := beq_eq_false_iff_ne.2 h.single
  have hshort := tagContent?_of_slash (Option.some_ne_none _).symm htag
  obtain ⟨b, bs, rfl, hb, hbang, hquestion⟩ := h.cons
  have hpiece : piece? (b :: bs ++ [0x3e]) = some (.tag (b :: bs), []) := by
    apply piece?_of_tagContent? _ _ hshort
    · exact fun heq => hbang (Option.some.inj heq)
    · exact fun heq => hquestion (Option.some.inj heq)
  apply Marks.tag hpiece
  rw [tagEvent?_start hb, hlast, if_neg Bool.false_ne_true]

theorem trimEnd_tagName (content : Bytes) : trimEnd (tagName content) = tagName content := by
  have hspace : ∀ b ∈ (tagName content).reverse, ¬isSpace b = true := by
    intro b hb
    have hname := List.mem_takeWhile_imp (List.mem_reverse.1 hb)
    simpa using hname
  rw [trimEnd, List.dropWhile_eq_self_iff.2, List.reverse_reverse]
  intro hpos
  exact hspace _ (List.getElem_mem hpos)

theorem IsEmptyTag.marks_closing (h : IsEmptyTag content) (opened : List Bytes) :
    Marks (tagName content :: opened) (0x2f :: (tagName content ++ [0x3e])) [.closing] opened := by
  obtain ⟨-, -, htag⟩ := tagContent?_of_piece? h.whole
  have hends : ∀ b ∈ tagName content, b ≠ 0x3e := by
    have hsplit : tagName content ++ content.dropWhile (!isSpace ·) = content :=
      List.takeWhile_append_dropWhile
    have hle : (tagName content).length ≤ (content ++ [0x2f]).length := by
      rw [List.length_append]
      exact Nat.le_add_right_of_le (List.takeWhile_sublist _).length_le
    nth_rewrite 1 [← hsplit] at htag
    rw [List.append_assoc] at htag
    exact ne_end_of_unquoted h.unquoted htag hle
  have hname : tagContent? none (0x2f :: (tagName content ++ [0x3e])) =
      some (0x2f :: tagName content, []) := by
    have hslash : quoteAfter none 0x2f = none := rfl
    rw [tagContent?_cons fun _ => by decide, hslash,
      tagContent?_of_unquoted h.unquoted hends []]
    rfl
  have hpiece : piece? (0x2f :: (tagName content ++ [0x3e])) =
      some (.tag (0x2f :: tagName content), []) := by
    apply piece?_of_tagContent? _ _ hname
    · exact fun heq => absurd (Option.some.inj heq) (by decide)
    · exact fun heq => absurd (Option.some.inj heq) (by decide)
  apply Marks.tag hpiece
  rw [tagEvent?, trimEnd_tagName, if_pos (beq_self_eq_true _)]

end Tags

/-- A document without the mark of its byte order. -/
def unmarked (bs : Bytes) : Bytes :=
  if bs.take 3 == [0xef, 0xbb, 0xbf] then bs.drop 3 else bs

theorem scan_eq (bs : Bytes) : scan bs = scanAll [] (unmarked bs) := rfl

/-- The mark, if there is one, stands before the first markup. -/
theorem unmarked_gap (hg : IsGap gap) :
    ∃ gap', IsGap gap' ∧ ∀ bs, unmarked (gap ++ 0x3c :: bs) = gap' ++ 0x3c :: bs := by
  by_cases hmark : gap.take 3 = [0xef, 0xbb, 0xbf]
  · have hle : 3 ≤ gap.length := by
      have hlength := congrArg List.length hmark
      rw [List.length_take, List.length_cons, List.length_cons, List.length_singleton] at hlength
      omega
    refine ⟨gap.drop 3, fun b hb => hg b (List.mem_of_mem_drop hb), ?_⟩
    intro bs
    rw [unmarked, List.take_append_of_le_length hle, hmark, if_pos (beq_self_eq_true _),
      List.drop_append_of_le_length hle]
  · refine ⟨gap, hg, ?_⟩
    intro bs
    apply if_neg
    rw [beq_iff_eq]
    intro hstart
    by_cases hle : 3 ≤ gap.length
    · rw [List.take_append_of_le_length hle] at hstart
      exact hmark hstart
    · have hmem : (0x3c : UInt8) ∈ (gap ++ 0x3c :: bs).take 3 := by
        rw [List.take_append, List.mem_append]
        right
        obtain ⟨n, hn⟩ := Nat.exists_eq_add_of_lt (Nat.lt_of_not_le hle)
        have : 3 - gap.length = n + 1 := by omega
        rw [this, List.take_succ_cons]
        exact List.mem_cons_self
      rw [hstart] at hmem
      exact absurd hmem (by decide)

theorem Unfolds.unmarked (h : Unfolds [] bs bs' depths) :
    Unfolds [] (unmarked bs) (unmarked bs') depths := by
  cases h with
  | same => exact .same _ _
  | keep hg hm h =>
    obtain ⟨gap', hg', hbody⟩ := unmarked_gap hg
    rw [hbody, hbody]
    exact .keep hg' hm h
  | unfold hg ht h =>
    obtain ⟨gap', hg', hbody⟩ := unmarked_gap hg
    rw [hbody, hbody]
    exact .unfold hg' ht h

theorem within_of_gap (events : List Event) (gap : Bytes) :
    (place (events ++ gapEvents gap)).within = (place events).within := by
  unfold gapEvents
  split
  · rw [List.append_nil]
  · rw [place_snoc]
    rfl

/-- The elements that are open behind markup are as many as it says. -/
theorem Marks.length_within {body : Bytes} {events before : List Event}
    (h : Marks opened body events opened') (hl : (place before).within.length = opened.length) :
    (place (before ++ events)).within.length = opened'.length := by
  cases h with
  | ignored => rw [List.append_nil, hl]
  | verbatim =>
    rw [place_snoc]
    exact hl
  | tag _ he =>
    rw [place_snoc]
    unfold tagEvent? at he
    split at he
    · split at he
      · cases he
        rw [Place.next, List.length_tail, hl]
        rfl
      · cases he
    · cases he
    · split at he
      · cases he
        exact hl
      · cases he
        rw [Place.next, List.length_cons, hl]
        rfl

end Markup

namespace Pattern
open Markup

variable {bs bs' : Bytes} {opened opened' : List Bytes} {depths : List Nat} {name : String}

namespace Draft

variable {d d' : Draft} {u : Unit} {events : List Event}

/-- Reads a document from a place on where these elements are open. -/
def readFrom (opened : List Bytes) (bs : Bytes) : Reading Unit := do
  (scanAll opened bs).events.forM read
  if !(scanAll opened bs).complete then throw (.document .malformed)

/-- What is asked of a draft when all is read. -/
def conclude : Reading Unit := do
  let d ← get
  if !d.rooted then throw (.document .noRoot)
  match d.pattern.validate with
  | .ok _ => pure ()
  | .error e => throw e

theorem readDocument_eq (bs : Bytes) :
    readDocument bs = readFrom [] (unmarked bs) >>= fun _ => conclude := by
  rw [readFrom, bind_assoc, readDocument, scan_eq]
  apply bind_congr
  intro _
  cases (scanAll [] (unmarked bs)).complete with
  | true => rfl
  | false => rfl

theorem readFrom_after (h : scanAll opened bs = .after events (scanAll opened' bs')) :
    readFrom opened bs = events.forM read >>= fun _ => readFrom opened' bs' := by
  rw [readFrom, h, Scan.after, List.forM_eq_forM, List.forM_append, bind_assoc]
  rfl

theorem read_opening (tag : Tag) (h : d.opened.length < maxNestDepth) :
    read (.opening tag) d = (do
      let id ← openElement tag
      modify fun d => { d with opened := (id, "") :: d.opened } : Reading Unit) d := by
  have hget : (get : Reading Draft) d = .ok d d := rfl
  rw [read, bind_of_ok hget, if_neg (Nat.not_le.2 h)]

theorem read_opening_of_deep (tag : Tag) (h : maxNestDepth ≤ d.opened.length) :
    read (.opening tag) d = .error (.document .tooDeep) d := by
  have hget : (get : Reading Draft) d = .ok d d := rfl
  rw [read, bind_of_ok hget, if_pos h]
  rfl

/-- An empty element is read like one that ends where it begins, if there is room for that one. -/
theorem read_pair (tag : Tag) (h : d.opened.length < maxNestDepth) :
    (read (.opening tag) >>= fun _ => read .closing) d = read (.empty tag) d := by
  have hpair := read_opening tag h
  have hempty : read (.empty tag) d = (openElement tag >>= (closeElement · "")) d := rfl
  cases hopen : openElement tag d with
  | error e d' =>
    rw [bind_of_error hopen] at hpair hempty
    rw [hempty, bind_of_error hpair]
  | ok id d' =>
    rw [bind_of_ok hopen] at hpair hempty
    rw [hempty, bind_of_ok hpair]
    rfl

/-- How a document is read and how one is in which elements are unfolded at these depths. -/
inductive Compares (depths : List Nat) :
    EStateM.Result PatternError Draft Unit → EStateM.Result PatternError Draft Unit → Prop where
  | same (hd : ∀ k ∈ depths, k < maxNestDepth) (x : EStateM.Result PatternError Draft Unit) :
      Compares depths x x
  | failed (e : PatternError) (d : Draft) : Compares depths (.error e d) (.error e d)
  | tooDeep (hd : ∃ k ∈ depths, maxNestDepth ≤ k) (x : EStateM.Result PatternError Draft Unit)
      (d : Draft) : Compares depths x (.error (.document .tooDeep) d)

theorem Compares.cons {x y : EStateM.Result PatternError Draft Unit} (h : Compares depths x y)
    {k : Nat} (hk : k < maxNestDepth) : Compares (k :: depths) x y := by
  cases h with
  | same hd => exact .same (List.forall_mem_cons.2 ⟨hk, hd⟩) x
  | failed e d => exact .failed e d
  | tooDeep hd _ d =>
    obtain ⟨k', hmem, hle⟩ := hd
    exact .tooDeep ⟨k', List.mem_cons_of_mem k hmem, hle⟩ x d

theorem Compares.before {m m' first first' : Reading Unit} (hf : first' d = first d)
    (h : ∀ d', first d = .ok () d' → Compares depths (m d') (m' d')) :
    Compares depths ((first >>= fun _ => m) d) ((first' >>= fun _ => m') d) := by
  cases hfirst : first d with
  | error e d' =>
    rw [hfirst] at hf
    rw [bind_of_error hfirst, bind_of_error hf]
    exact .failed e d'
  | ok u d' =>
    rw [hfirst] at hf
    rw [bind_of_ok hfirst, bind_of_ok hf]
    exact h d' hfirst

theorem Compares.behind {m m' : Reading Unit} (last : Reading Unit)
    (h : Compares depths (m d) (m' d)) :
    Compares depths ((m >>= fun _ => last) d) ((m' >>= fun _ => last) d) := by
  generalize hx : m d = x at h
  generalize hy : m' d = y at h
  cases h with
  | same hd =>
    have hsame : (m >>= fun _ => last) d = (m' >>= fun _ => last) d := by
      cases x with
      | ok u d' => rw [bind_of_ok hx, bind_of_ok hy]
      | error e d' => rw [bind_of_error hx, bind_of_error hy]
    rw [hsame]
    exact .same hd _
  | failed e d' =>
    rw [bind_of_error hx, bind_of_error hy]
    exact .failed e d'
  | tooDeep hd _ d' =>
    rw [bind_of_error hy]
    exact .tooDeep hd _ d'

theorem Traces.length_opened (h : d.Traces events) :
    d.opened.length = (place events).within.length := by
  rw [h.opened, stack, List.length_map]

/-- Unfolded elements make no difference until one of them is too deep. -/
theorem compares_readFrom (h : Unfolds opened bs bs' depths) (hd : d.Traces events)
    (hl : (place events).within.length = opened.length) :
    Compares depths (readFrom opened bs d) (readFrom opened bs' d) := by
  induction h generalizing d events with
  | same opened bs => exact .same (List.forall_mem_nil _) _
  | @keep opened opened' gap body bs bs' marks depths hg hm h ih =>
    rw [readFrom_after (scanAll_gap hg opened _), readFrom_after (scanAll_gap hg opened _),
      readFrom_after (scanAll_markup hm bs), readFrom_after (scanAll_markup hm bs')]
    apply Compares.before rfl
    intro d₁ hgap
    apply Compares.before rfl
    intro d₂ hmarks
    apply ih ((hd.reads hgap).reads hmarks)
    apply hm.length_within
    rw [within_of_gap, hl]
  | @unfold opened gap content bs bs' depths hg ht h ih =>
    rw [readFrom_after (scanAll_gap hg opened _), readFrom_after (scanAll_gap hg opened _),
      readFrom_after (scanAll_markup (ht.marks_empty opened) bs),
      readFrom_after (scanAll_markup (ht.marks_opening opened) _),
      readFrom_after (scanAll_markup (ht.marks_closing opened) bs')]
    apply Compares.before rfl
    intro d₁ hgap
    have hd₁ := hd.reads hgap
    have hl₁ : (place (events ++ gapEvents gap)).within.length = opened.length := by
      rw [within_of_gap, hl]
    have hopen : d₁.opened.length = opened.length := by
      rw [hd₁.length_opened, hl₁]
    have single (event : Event) : [event].forM read = read event := by
      rw [List.forM_eq_forM, List.forM_cons, List.forM_nil, bind_pure_unit]
    rw [single, single, single]
    -- Only here can the two runs part: the start tag is refused where the empty one was not.
    by_cases hk : opened.length < maxNestDepth
    · rw [← bind_assoc]
      apply Compares.before (read_pair _ (hopen ▸ hk))
      intro d₂ hempty
      exact (ih (hd₁.read hempty) ((ht.marks_empty opened).length_within hl₁)).cons hk
    · have hle := Nat.le_of_not_lt hk
      rw [bind_of_error (read_opening_of_deep _ (hopen ▸ hle))]
      exact .tooDeep ⟨_, List.mem_cons_self, hle⟩ _ _

end Draft

/-- An empty element may be written as a start tag and an end tag: documents that differ only so
give the same pattern or the same fault. But the first of these tags counts as a level, and an empty
element does not: within as many elements as may be nested, only the empty one is let pass. -/
theorem ofDocument_of_unfolds (name : String) (h : Unfolds [] bs bs' depths) :
    ((∀ k ∈ depths, k < maxNestDepth) → ofDocument name bs' = ofDocument name bs) ∧
    ((∃ k ∈ depths, maxNestDepth ≤ k) →
      (ofDocument name bs').1 = .error (.document .tooDeep) ∨
      ∃ e, (ofDocument name bs').1 = .error e ∧ ofDocument name bs' = ofDocument name bs) := by
  have hread := (Draft.compares_readFrom h.unmarked (Draft.traces_ofName name) rfl).behind
    Draft.conclude
  rw [← Draft.readDocument_eq, ← Draft.readDocument_eq] at hread
  unfold ofDocument
  generalize Draft.readDocument bs _ = x at hread ⊢
  generalize Draft.readDocument bs' _ = y at hread ⊢
  cases hread with
  | same hd =>
    refine ⟨fun _ => rfl, ?_⟩
    rintro ⟨k, hk, hle⟩
    exact absurd (hd k hk) (Nat.not_lt.2 hle)
  | failed e d => exact ⟨fun _ => rfl, fun _ => .inr ⟨e, rfl, rfl⟩⟩
  | tooDeep hd _ d =>
    obtain ⟨k, hk, hle⟩ := hd
    exact ⟨fun hless => absurd (hless k hk) (Nat.not_lt.2 hle), fun _ => .inl rfl⟩

/-- A document with an element within so many actions. -/
def nestText (levels : Nat) (inmost : String) : Bytes :=
  ascii "<bulletml><action label='top'>" ++ (List.replicate levels (ascii "<action>")).flatten ++
    ascii inmost ++ (List.replicate levels (ascii "</action>")).flatten ++
    ascii "</action></bulletml>"

theorem shallow_pair_loads :
    Unfolds [] (nestText 0 "<vanish/>") (nestText 0 "<vanish></vanish>") [2] ∧
    ofDocument "nest" (nestText 0 "<vanish></vanish>") =
      ofDocument "nest" (nestText 0 "<vanish/>") ∧
    (ofDocument "nest" (nestText 0 "<vanish/>")).1.map Pattern.size = .ok 3 := by
  have htag : IsEmptyTag (ascii "vanish") := by
    constructor <;> decide +kernel
  have hblank : IsGap [] := List.forall_mem_nil _
  have hroot : piece? (ascii "bulletml>") = some (.tag (ascii "bulletml"), []) := by
    decide +kernel
  have htop : piece? (ascii "action label='top'>") =
      some (.tag (ascii "action label='top'"), []) := by decide +kernel
  have hunfolds : Unfolds [] (nestText 0 "<vanish/>") (nestText 0 "<vanish></vanish>") [2] :=
    .keep hblank (.tag hroot rfl) (.keep hblank (.tag htop rfl) (.unfold hblank htag (.same _ _)))
  have hshallow : ∀ k ∈ [2], k < maxNestDepth := by decide
  exact ⟨hunfolds, (ofDocument_of_unfolds "nest" hunfolds).1 hshallow, by decide +kernel⟩

/-- Within 128 elements one more may be empty, but it may not be written with two tags. -/
theorem deep_pair_is_refused :
    (ofDocument "nest" (nestText 126 "<vanish/>")).1.map Pattern.size = .ok 129 ∧
    (ofDocument "nest" (nestText 126 "<vanish></vanish>")).1.map Pattern.size =
      .error (.document .tooDeep) := by
  refine ⟨?_, ?_⟩ <;> decide +kernel

end Pattern
end Barrage

import Barrage.Markup.Event
import Mathlib.Data.List.TakeWhile

namespace Barrage.Markup

variable {bs body before rest gap content : Bytes} {opened opened' : List Bytes} {piece : Piece}

section Local

/-- What is cut off ends with a whole mark. -/
theorem length_of_cut? {stop : Bytes} (h : cut? stop bs = some (before, rest)) :
    stop.length + rest.length ≤ bs.length := by
  induction bs generalizing before with
  | nil =>
    rw [cut?] at h
    split at h
    · next hempty =>
      cases h
      rw [List.isEmpty_iff.1 hempty]
      exact Nat.le_refl _
    · cases h
  | cons b bs ih =>
    rw [cut?] at h
    split at h
    · next hstop =>
      cases h
      have hle := (List.isPrefixOf_iff_prefix.1 hstop).length_le
      rw [List.length_drop]
      omega
    · obtain ⟨⟨before', rest'⟩, hcut, h⟩ := Option.map_eq_some_iff.1 h
      cases h
      have hle := ih hcut
      rw [List.length_cons]
      omega

/-- A mark that was found is the first one whatever follows it. -/
theorem cut?_append {stop : Bytes} (hs : stop ≠ []) (h : cut? stop bs = some (before, rest))
    (more : Bytes) : cut? stop (bs ++ more) = some (before, rest ++ more) := by
  induction bs generalizing before with
  | nil =>
    rw [cut?, if_neg (mt List.isEmpty_iff.1 hs)] at h
    cases h
  | cons b bs ih =>
    rw [cut?] at h
    rw [List.cons_append, cut?]
    split at h
    · next hstop =>
      cases h
      have hstart := List.isPrefixOf_iff_prefix.1 hstop
      have hmore : stop.isPrefixOf (b :: (bs ++ more)) = true :=
        List.isPrefixOf_iff_prefix.2 (hstart.trans (List.prefix_append (b :: bs) more))
      rw [if_pos hmore, ← List.cons_append, List.drop_append_of_le_length hstart.length_le]
    · next hstop =>
      obtain ⟨⟨before', rest'⟩, hcut, h⟩ := Option.map_eq_some_iff.1 h
      cases h
      -- A mark that reaches into what follows would begin behind the one that was found.
      have hmore : ¬stop.isPrefixOf (b :: (bs ++ more)) = true := by
        intro hmore
        apply hstop
        have hle := length_of_cut? hcut
        apply List.isPrefixOf_iff_prefix.2
        apply List.prefix_of_prefix_length_le (List.isPrefixOf_iff_prefix.1 hmore)
          (List.prefix_append (b :: bs) more)
        rw [List.length_cons]
        omega
      rw [if_neg hmore, ih hcut]
      rfl

theorem balanced?_cons_of_ne {b : UInt8} (hb : b ≠ 0x3e) (depth : Nat) (bs : Bytes) :
    balanced? depth (b :: bs) =
      (balanced? (if b == 0x3c then depth + 1 else depth) bs).map fun x => (b :: x.1, x.2) := by
  rw [balanced?]
  exact hb

theorem balanced?_append {depth : Nat} (h : balanced? depth bs = some (before, rest))
    (more : Bytes) : balanced? depth (bs ++ more) = some (before, rest ++ more) := by
  induction bs generalizing depth before with
  | nil => cases h
  | cons b bs ih =>
    rw [List.cons_append]
    by_cases hb : b = 0x3e
    · subst hb
      cases depth with
      | zero =>
        cases h
        rfl
      | succ depth =>
        obtain ⟨⟨before', rest'⟩, hrest, h⟩ := Option.map_eq_some_iff.1 h
        cases h
        rw [balanced?, ih hrest]
        rfl
    · rw [balanced?_cons_of_ne hb] at h ⊢
      obtain ⟨⟨before', rest'⟩, hrest, h⟩ := Option.map_eq_some_iff.1 h
      cases h
      rw [ih hrest]
      rfl

theorem length_of_balanced? {depth : Nat} (h : balanced? depth bs = some (before, rest)) :
    rest.length < bs.length := by
  induction bs generalizing depth before with
  | nil => cases h
  | cons b bs ih =>
    rw [List.length_cons]
    by_cases hb : b = 0x3e
    · subst hb
      cases depth with
      | zero =>
        cases h
        exact Nat.lt_succ_self _
      | succ depth =>
        obtain ⟨⟨before', rest'⟩, hrest, h⟩ := Option.map_eq_some_iff.1 h
        cases h
        exact Nat.lt_succ_of_lt (ih hrest)
    · rw [balanced?_cons_of_ne hb] at h
      obtain ⟨⟨before', rest'⟩, hrest, h⟩ := Option.map_eq_some_iff.1 h
      cases h
      exact Nat.lt_succ_of_lt (ih hrest)

/-- The quote that is open behind a byte. -/
def quoteAfter (quote : Option UInt8) (b : UInt8) : Option UInt8 :=
  match quote with
  | none => if b == 0x22 || b == 0x27 then some b else none
  | some q => if b == q then none else some q

theorem tagContent?_end (bs : Bytes) : tagContent? none (0x3e :: bs) = some ([], bs) := rfl

theorem tagContent?_cons {quote : Option UInt8} {b : UInt8} (hb : quote = none → b ≠ 0x3e)
    (bs : Bytes) : tagContent? quote (b :: bs) =
      (tagContent? (quoteAfter quote b) bs).map fun x => (b :: x.1, x.2) := by
  apply if_neg
  rw [Bool.and_eq_true, Option.isNone_iff_eq_none, beq_iff_eq]
  rintro ⟨hq, hend⟩
  exact hb hq hend

/-- A tag ends at its first byte, or goes on behind it. -/
theorem tagContent?_cases {quote : Option UInt8} (h : tagContent? quote bs = some (content, rest)) :
    (quote = none ∧ bs = 0x3e :: rest ∧ content = []) ∨
    ∃ b bs' content', (quote = none → b ≠ 0x3e) ∧ bs = b :: bs' ∧ content = b :: content' ∧
      tagContent? (quoteAfter quote b) bs' = some (content', rest) := by
  cases bs with
  | nil => cases h
  | cons b bs =>
    by_cases hb : quote = none ∧ b = 0x3e
    · obtain ⟨rfl, rfl⟩ := hb
      rw [tagContent?_end] at h
      cases h
      exact .inl ⟨rfl, rfl, rfl⟩
    · have hgo := not_and.1 hb
      rw [tagContent?_cons hgo] at h
      obtain ⟨⟨content', rest'⟩, hrest, h⟩ := Option.map_eq_some_iff.1 h
      cases h
      exact .inr ⟨b, bs, content', hgo, rfl, rfl, hrest⟩

/-- A tag is what stands before its end. -/
theorem eq_of_tagContent? {quote : Option UInt8} (h : tagContent? quote bs = some (content, rest)) :
    bs = content ++ 0x3e :: rest := by
  induction bs generalizing quote content with
  | nil => cases h
  | cons b bs ih =>
    rcases tagContent?_cases h with ⟨_, hbs, rfl⟩ | ⟨b', bs', content', _, hbs, rfl, hrest⟩
    · exact hbs
    · cases hbs
      rw [ih hrest]
      rfl

theorem tagContent?_append {quote : Option UInt8} (h : tagContent? quote bs = some (content, rest))
    (more : Bytes) : tagContent? quote (bs ++ more) = some (content, rest ++ more) := by
  induction bs generalizing quote content with
  | nil => cases h
  | cons b bs ih =>
    rcases tagContent?_cases h with ⟨rfl, hbs, rfl⟩ | ⟨b', bs', content', hb, hbs, rfl, hrest⟩
    · cases hbs
      rfl
    · cases hbs
      rw [List.cons_append, tagContent?_cons hb, ih hrest]
      rfl

/-- Markup of three kinds begins with a mark of its own, and the rest are tags. -/
theorem piece?_cases (h : piece? bs = some (piece, rest)) :
    (∃ bs', bs = 0x21 :: bs' ∧ bs'.head? = some 0x2d ∧ comment? bs' = some (piece, rest)) ∨
    (∃ bs', bs = 0x21 :: bs' ∧ bs'.head? = some 0x5b ∧ verbatim? bs' = some (piece, rest)) ∨
    (∃ bs', bs = 0x21 :: bs' ∧ (bs'.head? = some 0x44 ∨ bs'.head? = some 0x64) ∧
      doctype? bs' = some (piece, rest)) ∨
    (∃ bs', bs = 0x3f :: bs' ∧ instruction? bs' = some (piece, rest)) ∨
    ∃ content, bs.head? ≠ some 0x21 ∧ bs.head? ≠ some 0x3f ∧ piece = .tag content ∧
      tagContent? none bs = some (content, rest) := by
  unfold piece? at h
  split at h
  · split at h
    · exact .inl ⟨_, rfl, rfl, h⟩
    · exact .inr (.inl ⟨_, rfl, rfl, h⟩)
    · exact .inr (.inr (.inl ⟨_, rfl, .inl rfl, h⟩))
    · exact .inr (.inr (.inl ⟨_, rfl, .inr rfl, h⟩))
    · cases h
  · exact .inr (.inr (.inr (.inl ⟨_, rfl, h⟩)))
  · next hbang hquestion =>
    obtain ⟨⟨content, rest'⟩, htag, h⟩ := Option.map_eq_some_iff.1 h
    cases h
    refine .inr (.inr (.inr (.inr ⟨content, ?_, ?_, rfl, htag⟩)))
    · intro hhead
      obtain ⟨bs', rfl⟩ := List.head?_eq_some_iff.1 hhead
      exact hbang bs' rfl
    · intro hhead
      obtain ⟨bs', rfl⟩ := List.head?_eq_some_iff.1 hhead
      exact hquestion bs' rfl

theorem piece?_of_tagContent? (hbang : bs.head? ≠ some 0x21) (hquestion : bs.head? ≠ some 0x3f)
    (h : tagContent? none bs = some (content, rest)) :
    piece? bs = some (.tag content, rest) := by
  unfold piece?
  split
  · exact absurd rfl hbang
  · exact absurd rfl hquestion
  · rw [h]
    rfl

theorem head?_tag_append (content rest more : Bytes) :
    (content ++ 0x3e :: rest ++ more).head? = (content ++ 0x3e :: rest).head? := by
  cases content with
  | nil => rfl
  | cons b content => rfl

/-- Markup between two marks, as comments and verbatim text are. -/
def between? (start stop : Bytes) (make : Bytes → Piece) (bs : Bytes) : Option (Piece × Bytes) :=
  if bs.take start.length == start then
    (cut? stop (bs.drop start.length)).map fun x => (make x.1, x.2)
  else none

theorem comment?_eq (bs : Bytes) :
    comment? bs = between? (ascii "--") (ascii "-->") (fun _ => .ignored) bs := rfl

theorem verbatim?_eq (bs : Bytes) :
    verbatim? bs = between? (ascii "[CDATA[") (ascii "]]>") .verbatim bs := rfl

section Between

variable {start stop : Bytes} {make : Bytes → Piece}

theorem cut?_of_between? (h : between? start stop make bs = some (piece, rest)) :
    bs.take start.length = start ∧ ∃ raw, piece = make raw ∧
      cut? stop (bs.drop start.length) = some (raw, rest) := by
  unfold between? at h
  split at h
  · next hstart =>
    obtain ⟨⟨raw, rest'⟩, hcut, h⟩ := Option.map_eq_some_iff.1 h
    cases h
    exact ⟨eq_of_beq hstart, raw, rfl, hcut⟩
  · cases h

theorem between?_append (hs : stop ≠ []) (h : between? start stop make bs = some (piece, rest))
    (more : Bytes) : between? start stop make (bs ++ more) = some (piece, rest ++ more) := by
  obtain ⟨hstart, raw, rfl, hcut⟩ := cut?_of_between? h
  have hle : start.length ≤ bs.length := by
    rw [← hstart]
    exact List.length_take_le' _ _
  rw [between?, List.take_append_of_le_length hle, hstart, if_pos (beq_self_eq_true start),
    List.drop_append_of_le_length hle, cut?_append hs hcut]
  rfl

theorem length_of_between? (h : between? start stop make bs = some (piece, rest)) :
    rest.length ≤ bs.length := by
  obtain ⟨_, raw, _, hcut⟩ := cut?_of_between? h
  have hle := length_of_cut? hcut
  rw [List.length_drop] at hle
  omega

end Between

theorem doctype?_cases (h : doctype? bs = some (piece, rest)) :
    piece = .ignored ∧ ∃ content, balanced? 0 bs = some (content, rest) ∧
      ∀ bs' rest', balanced? 0 bs' = some (content, rest') →
        doctype? bs' = some (piece, rest') := by
  unfold doctype? at h
  split at h
  · next content rest' hcontent =>
    split at h
    · next hkeyword =>
      cases h
      refine ⟨rfl, content, hcontent, ?_⟩
      intro bs' rest' hcontent'
      simp only [doctype?, hcontent', if_pos hkeyword]
    · cases h
  · cases h

theorem instruction?_cases (h : instruction? bs = some (piece, rest)) :
    bs.head? ≠ some 0x3e ∧ piece = .ignored ∧
      ∃ before, cut? (ascii "?>") bs = some (before, rest) := by
  unfold instruction? at h
  split at h
  · cases h
  · next hhead =>
    obtain ⟨⟨before, rest'⟩, hcut, h⟩ := Option.map_eq_some_iff.1 h
    cases h
    exact ⟨fun heq => hhead (beq_iff_eq.2 heq), rfl, before, hcut⟩

/-- Markup is the same whatever follows it. -/
theorem piece?_append (h : piece? bs = some (piece, rest)) (more : Bytes) :
    piece? (bs ++ more) = some (piece, rest ++ more) := by
  have hcomment : ascii "-->" ≠ [] := by decide
  have hverbatim : ascii "]]>" ≠ [] := by decide
  have hinstruction : ascii "?>" ≠ [] := by decide
  rcases piece?_cases h with ⟨bs, rfl, hhead, h⟩ | ⟨bs, rfl, hhead, h⟩ | ⟨bs, rfl, hhead, h⟩ |
    ⟨bs, rfl, h⟩ | ⟨content, hbang, hquestion, rfl, htag⟩
  · obtain ⟨bs, rfl⟩ := List.head?_eq_some_iff.1 hhead
    rw [comment?_eq] at h
    exact between?_append hcomment h more
  · obtain ⟨bs, rfl⟩ := List.head?_eq_some_iff.1 hhead
    rw [verbatim?_eq] at h
    exact between?_append hverbatim h more
  · obtain ⟨-, content, hcontent, hdoctype⟩ := doctype?_cases h
    have hmore := hdoctype _ _ (balanced?_append hcontent more)
    rcases hhead with hhead | hhead
    · obtain ⟨bs, rfl⟩ := List.head?_eq_some_iff.1 hhead
      exact hmore
    · obtain ⟨bs, rfl⟩ := List.head?_eq_some_iff.1 hhead
      exact hmore
  · obtain ⟨hhead, rfl, before, hcut⟩ := instruction?_cases h
    cases bs with
    | nil => cases hcut
    | cons b bs =>
      have hb : ¬((b :: (bs ++ more)).head? == some 0x3e) = true := by
        intro heq
        exact hhead (beq_iff_eq.1 heq)
      have hmore := cut?_append hinstruction hcut more
      rw [List.cons_append] at hmore ⊢
      rw [List.cons_append, piece?, instruction?, if_neg hb, hmore]
      rfl
  · have hhead : (bs ++ more).head? = bs.head? := by
      rw [eq_of_tagContent? htag, head?_tag_append]
    apply piece?_of_tagContent? (hhead ▸ hbang) (hhead ▸ hquestion)
    exact tagContent?_append htag more

theorem tagContent?_of_piece? (h : piece? bs = some (.tag content, rest)) :
    bs.head? ≠ some 0x21 ∧ bs.head? ≠ some 0x3f ∧ tagContent? none bs = some (content, rest) := by
  rcases piece?_cases h with ⟨bs, rfl, hhead, h⟩ | ⟨bs, rfl, hhead, h⟩ | ⟨bs, rfl, hhead, h⟩ |
    ⟨bs, rfl, h⟩ | ⟨content, hbang, hquestion, hpiece, htag⟩
  · rw [comment?_eq] at h
    obtain ⟨-, raw, hpiece, -⟩ := cut?_of_between? h
    cases hpiece
  · rw [verbatim?_eq] at h
    obtain ⟨-, raw, hpiece, -⟩ := cut?_of_between? h
    cases hpiece
  · cases (doctype?_cases h).1
  · cases (instruction?_cases h).2.1
  · cases hpiece
    exact ⟨hbang, hquestion, htag⟩

theorem length_of_piece? (h : piece? bs = some (piece, rest)) : rest.length ≤ bs.length := by
  rcases piece?_cases h with ⟨bs, rfl, hhead, h⟩ | ⟨bs, rfl, hhead, h⟩ | ⟨bs, rfl, hhead, h⟩ |
    ⟨bs, rfl, h⟩ | ⟨content, hbang, hquestion, rfl, htag⟩
  · rw [comment?_eq] at h
    exact Nat.le_succ_of_le (length_of_between? h)
  · rw [verbatim?_eq] at h
    exact Nat.le_succ_of_le (length_of_between? h)
  · obtain ⟨-, content, hcontent, -⟩ := doctype?_cases h
    exact Nat.le_succ_of_le (Nat.le_of_lt (length_of_balanced? hcontent))
  · obtain ⟨_, _, before, hcut⟩ := instruction?_cases h
    exact Nat.le_succ_of_le (Nat.le_trans (Nat.le_add_left _ _) (length_of_cut? hcut))
  · rw [eq_of_tagContent? htag, List.length_append, List.length_cons]
    omega

end Local

/-- The events of markup or text that comes before what was scanned. -/
def Scan.after (events : List Event) (s : Scan) : Scan := { s with events := events ++ s.events }

/-- One round of a scan, given how what follows is scanned. -/
def scanRound (next : List Bytes → Bytes → Scan) (opened : List Bytes) (bs : Bytes) : Scan :=
  match bs.dropWhile isSpace with
  | [] => ⟨[], true⟩
  | 0x3c :: bs =>
    match piece? bs with
    | none => ⟨[], false⟩
    | some (.ignored, rest) => next opened rest
    | some (.verbatim raw, rest) => .cons (.verbatim raw) (next opened rest)
    | some (.tag content, rest) =>
      match tagEvent? opened content with
      | none => ⟨[], false⟩
      | some (e, opened) => .cons e (next opened rest)
  | bs =>
    .cons (.text (trimEnd (bs.takeWhile (· != 0x3c)))) (next opened (bs.dropWhile (· != 0x3c)))

theorem scanFrom_succ (fuel : Nat) (opened : List Bytes) (bs : Bytes) :
    scanFrom (fuel + 1) opened bs = scanRound (scanFrom fuel) opened bs := rfl

theorem length_dropWhile_le (p : UInt8 → Bool) (bs : Bytes) :
    (bs.dropWhile p).length ≤ bs.length := (List.dropWhile_sublist p).length_le

/-- A round takes something up before it goes on. -/
theorem scanRound_congr {next next' : List Bytes → Bytes → Scan}
    (h : ∀ opened rest, rest.length < bs.length → next opened rest = next' opened rest) :
    scanRound next opened bs = scanRound next' opened bs := by
  have hle := length_dropWhile_le isSpace bs
  unfold scanRound
  split
  · rfl
  · next bs' hbs =>
    rw [hbs, List.length_cons] at hle
    split
    · rfl
    · next rest hpiece => exact h _ _ (Nat.lt_of_le_of_lt (length_of_piece? hpiece) hle)
    · next raw rest hpiece =>
      rw [h _ _ (Nat.lt_of_le_of_lt (length_of_piece? hpiece) hle)]
    · next content rest hpiece =>
      split
      · rfl
      · rw [h _ _ (Nat.lt_of_le_of_lt (length_of_piece? hpiece) hle)]
  · next hempty hmarkup =>
    rw [h]
    generalize bs.dropWhile isSpace = text at hle hempty hmarkup
    cases text with
    | nil => exact absurd rfl hempty
    | cons b text =>
      have hb : (b != 0x3c) = true := by
        rw [bne_iff_ne]
        rintro rfl
        exact hmarkup text rfl
      rw [List.dropWhile_cons_of_pos (p := (· != 0x3c)) hb]
      exact Nat.lt_of_le_of_lt (length_dropWhile_le _ _) hle

/-- Fuel for every byte is enough. -/
theorem scanFrom_eq {fuel fuel' : Nat} (h : bs.length ≤ fuel) (h' : bs.length ≤ fuel') :
    scanFrom fuel opened bs = scanFrom fuel' opened bs := by
  induction fuel generalizing fuel' opened bs with
  | zero =>
    cases List.length_eq_zero_iff.1 (Nat.le_zero.1 h)
    cases fuel' with
    | zero => rfl
    | succ fuel' => rfl
  | succ fuel ih =>
    cases fuel' with
    | zero =>
      cases List.length_eq_zero_iff.1 (Nat.le_zero.1 h')
      rfl
    | succ fuel' =>
      rw [scanFrom_succ, scanFrom_succ]
      apply scanRound_congr
      intro opened rest hrest
      exact ih (Nat.le_of_lt_succ (Nat.lt_of_lt_of_le hrest h))
        (Nat.le_of_lt_succ (Nat.lt_of_lt_of_le hrest h'))

/-- The events of a document from a place on where these elements are open. -/
def scanAll (opened : List Bytes) (bs : Bytes) : Scan := scanFrom bs.length opened bs

theorem scanAll_eq (opened : List Bytes) (bs : Bytes) :
    scanAll opened bs = scanRound scanAll opened bs := by
  have hfuel : scanAll opened bs = scanFrom (bs.length + 1) opened bs :=
    scanFrom_eq (Nat.le_refl _) (Nat.le_succ _)
  rw [hfuel, scanFrom_succ]
  apply scanRound_congr
  intro opened rest hrest
  exact scanFrom_eq (Nat.le_of_lt hrest) (Nat.le_refl _)

/-- Space or text, up to the next markup. -/
def IsGap (gap : Bytes) : Prop := ∀ b ∈ gap, b ≠ 0x3c

/-- What is read of a gap. -/
def gapEvents (gap : Bytes) : List Event :=
  match gap.dropWhile isSpace with
  | [] => []
  | text => [.text (trimEnd text)]

theorem scanRound_text {next : List Bytes → Bytes → Scan} {b : UInt8} {text : Bytes}
    (hb : b ≠ 0x3c) (h : bs.dropWhile isSpace = b :: text) :
    scanRound next opened bs = .cons (.text (trimEnd ((b :: text).takeWhile (· != 0x3c))))
      (next opened ((b :: text).dropWhile (· != 0x3c))) := by
  unfold scanRound
  rw [h]
  split
  · next heq => cases heq
  · next heq =>
    cases heq
    exact absurd rfl hb
  · rfl

theorem scanAll_gap (hg : IsGap gap) (opened : List Bytes) (bs : Bytes) :
    scanAll opened (gap ++ 0x3c :: bs) =
      .after (gapEvents gap) (scanAll opened (0x3c :: bs)) := by
  have hdrop := @List.dropWhile_append _ isSpace gap (0x3c :: bs)
  have hmem : ∀ b ∈ gap.dropWhile isSpace, (b != 0x3c) = true :=
    fun b hb => bne_iff_ne.2 (hg b ((List.dropWhile_sublist _).mem hb))
  unfold gapEvents
  cases htext : gap.dropWhile isSpace with
  | nil =>
    rw [htext, List.isEmpty_nil, if_pos rfl] at hdrop
    rw [scanAll_eq, scanAll_eq opened (0x3c :: bs), scanRound, scanRound, hdrop]
    rfl
  | cons b text =>
    rw [htext, List.isEmpty_cons, if_neg Bool.false_ne_true, List.cons_append] at hdrop
    rw [htext] at hmem
    rw [scanAll_eq, scanRound_text (bne_iff_ne.1 (hmem b List.mem_cons_self)) hdrop,
      ← List.cons_append, List.takeWhile_append_of_pos hmem, List.dropWhile_append_of_pos hmem]
    simp only [List.takeWhile_cons, List.dropWhile_cons, bne_self_eq_false, Bool.false_eq_true,
      if_false, List.append_nil]
    rfl

/-- Markup behind its `<`, what is read of it, and the elements that are open behind it. -/
inductive Marks (opened : List Bytes) (body : Bytes) : List Event → List Bytes → Prop where
  | ignored (h : piece? body = some (.ignored, [])) : Marks opened body [] opened
  | verbatim {raw : Bytes} (h : piece? body = some (.verbatim raw, [])) :
      Marks opened body [.verbatim raw] opened
  | tag {content : Bytes} {event : Event} {opened' : List Bytes}
      (h : piece? body = some (.tag content, []))
      (he : tagEvent? opened content = some (event, opened')) : Marks opened body [event] opened'

theorem scanAll_markup {events : List Event} (h : Marks opened body events opened')
    (bs : Bytes) :
    scanAll opened (0x3c :: (body ++ bs)) = .after events (scanAll opened' bs) := by
  have hmark : (0x3c :: (body ++ bs)).dropWhile isSpace = 0x3c :: (body ++ bs) :=
    List.dropWhile_cons_of_neg (by decide)
  rw [scanAll_eq]
  cases h with
  | ignored h =>
    simp only [scanRound, hmark, piece?_append h bs]
    rfl
  | verbatim h =>
    simp only [scanRound, hmark, piece?_append h bs]
    rfl
  | tag h he =>
    simp only [scanRound, hmark, piece?_append h bs, he]
    rfl

end Barrage.Markup

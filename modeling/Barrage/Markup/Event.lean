import Barrage.Markup.Bytes

namespace Barrage.Markup

/-- The name of an element and the unread text of its attributes. -/
structure Tag where
  name : Bytes
  attributes : Bytes
deriving DecidableEq, Repr

inductive Event where
  | opening (tag : Tag)
  | empty (tag : Tag)
  | closing
  | text (raw : Bytes)
  | verbatim (raw : Bytes)
deriving DecidableEq, Repr

/-- What one `<` begins: something of no account, verbatim text, or a tag. -/
inductive Piece where
  | ignored
  | verbatim (raw : Bytes)
  | tag (content : Bytes)
deriving DecidableEq, Repr

/-- A comment behind its `<!`, with two dashes at either end. -/
def comment? (bs : Bytes) : Option (Piece × Bytes) :=
  if bs.take 2 == ascii "--" then
    (cut? (ascii "-->") (bs.drop 2)).map fun (_, rest) => (.ignored, rest)
  else none

def verbatim? (bs : Bytes) : Option (Piece × Bytes) :=
  if bs.take 7 == ascii "[CDATA[" then
    (cut? (ascii "]]>") (bs.drop 7)).map fun (raw, rest) => (.verbatim raw, rest)
  else none

/-- What stands before the `>` that is not taken by a `<` of its own, and what stands behind it. -/
def balanced? : Nat → Bytes → Option (Bytes × Bytes)
  | _, [] => none
  | depth, 0x3e :: bs =>
    match depth with
    | 0 => some ([], bs)
    | depth + 1 => (balanced? depth bs).map fun (before, rest) => (0x3e :: before, rest)
  | depth, b :: bs =>
    (balanced? (if b == 0x3c then depth + 1 else depth) bs).map fun (before, rest) =>
      (b :: before, rest)

def lowerAscii (b : UInt8) : UInt8 := if 0x41 ≤ b && b ≤ 0x5a then b + 0x20 else b

/-- A document type behind its `<!`: the keyword in any case, then something that is not space. -/
def doctype? (bs : Bytes) : Option (Piece × Bytes) :=
  match balanced? 0 bs with
  | some (content, rest) =>
    if (content.take 7).map lowerAscii == ascii "doctype" && !(content.drop 7).all isSpace then
      some (.ignored, rest)
    else none
  | none => none

/-- A processing instruction behind its `<?`. The question mark that begins it cannot end it too. -/
def instruction? (bs : Bytes) : Option (Piece × Bytes) :=
  if bs.head? == some 0x3e then none
  else (cut? (ascii "?>") bs).map fun (_, rest) => (.ignored, rest)

/-- What stands before the first `>` outside quotes, and what stands behind it. -/
def tagContent? : Option UInt8 → Bytes → Option (Bytes × Bytes)
  | _, [] => none
  | quote, b :: bs =>
    if quote.isNone && b == 0x3e then some ([], bs)
    else
      let quote := match quote with
        | none => if b == 0x22 || b == 0x27 then some b else none
        | some q => if b == q then none else some q
      (tagContent? quote bs).map fun (before, rest) => (b :: before, rest)

def piece? : Bytes → Option (Piece × Bytes)
  | 0x21 :: bs =>
    match bs with
    | 0x2d :: _ => comment? bs
    | 0x5b :: _ => verbatim? bs
    | 0x44 :: _ | 0x64 :: _ => doctype? bs
    | _ => none
  | 0x3f :: bs => instruction? bs
  | bs => (tagContent? none bs).map fun (content, rest) => (.tag content, rest)

/-- The event of a tag, given the names of the elements open before it, innermost first. An end tag
must repeat the innermost name. -/
def tagEvent? (opened : List Bytes) (content : Bytes) : Option (Event × List Bytes) :=
  let split (bs : Bytes) : Tag :=
    ⟨bs.takeWhile (!isSpace ·), bs.dropWhile (!isSpace ·)⟩
  match content, opened with
  | 0x2f :: name, innermost :: outer =>
    if trimEnd name == innermost then some (.closing, outer) else none
  | 0x2f :: _, [] => none
  | content, opened =>
    if content.getLast? == some 0x2f then some (.empty (split content.dropLast), opened)
    else
      let tag := split content
      some (.opening tag, tag.name :: opened)

/-- The events of a document up to its end or to the first piece that is not markup. -/
structure Scan where
  events : List Event
  complete : Bool

def Scan.cons (e : Event) (s : Scan) : Scan := { s with events := e :: s.events }

/-- Reads events with at least as much fuel as there are bytes: every round takes one up. -/
def scanFrom : Nat → List Bytes → Bytes → Scan
  | 0, _, bs => ⟨[], (bs.dropWhile isSpace).isEmpty⟩
  | fuel + 1, opened, bs =>
    match bs.dropWhile isSpace with
    | [] => ⟨[], true⟩
    | 0x3c :: bs =>
      match piece? bs with
      | none => ⟨[], false⟩
      | some (.ignored, rest) => scanFrom fuel opened rest
      | some (.verbatim raw, rest) => .cons (.verbatim raw) (scanFrom fuel opened rest)
      | some (.tag content, rest) =>
        match tagEvent? opened content with
        | none => ⟨[], false⟩
        | some (e, opened) => .cons e (scanFrom fuel opened rest)
    | bs =>
      .cons (.text (trimEnd (bs.takeWhile (· != 0x3c))))
        (scanFrom fuel opened (bs.dropWhile (· != 0x3c)))

/-- A byte order mark at the start is no part of the document. Elements that are still open at the
end are left open. -/
def scan (bs : Bytes) : Scan :=
  let bs := if bs.take 3 == [0xef, 0xbb, 0xbf] then bs.drop 3 else bs
  scanFrom bs.length [] bs

end Barrage.Markup

import Barrage.Json.Basic
import Barrage.Text.Digits

namespace Barrage.Json

def isSpace (c : Char) : Bool := c == ' ' || c == '\n' || c == '\t' || c == '\r'

def skipSpace (cs : List Char) : List Char := cs.dropWhile isSpace

def expect? (word : String) (cs : List Char) : Option (List Char) :=
  if cs.take word.length == word.toList then some (cs.drop word.length) else none

def digits? (cs : List Char) : Option (List Char × List Char) :=
  match cs.takeWhile Char.isDigit with
  | [] => none
  | ds => some (ds, cs.dropWhile Char.isDigit)

/-- A whole number without superfluous zeros, and what follows. -/
def whole? : List Char → Option (List Char × List Char)
  | '0' :: c :: cs => if c.isDigit then none else some (['0'], c :: cs)
  | cs => digits? cs

def fraction? : List Char → Option (List Char × List Char)
  | '.' :: cs => digits? cs
  | cs => some ([], cs)

def exponent? : List Char → Option (Option (Bool × List Char) × List Char)
  | c :: cs =>
    if c == 'e' || c == 'E' then do
      let (negative, cs) := match cs with
        | '+' :: cs => (false, cs)
        | '-' :: cs => (true, cs)
        | cs => (false, cs)
      let (ds, cs) ← digits? cs
      some (some (negative, ds), cs)
    else some (none, c :: cs)
  | [] => some (none, [])

def numeral? (cs : List Char) : Option (Numeral × List Char) := do
  let (negative, cs) := match cs with
    | '-' :: cs => (true, cs)
    | cs => (false, cs)
  let (whole, cs) ← whole? cs
  let (fraction, cs) ← fraction? cs
  let (exponent, cs) ← exponent? cs
  some (⟨negative, whole, fraction, exponent⟩, cs)

/-- A string is made of characters and of 16-bit units that were written as numbers. -/
inductive StringPart where
  | char (c : Char)
  | unit (n : Nat)

def escape? : Char → Option Char
  | '\x22' => some '\x22'
  | '\\' => some '\\'
  | '/' => some '/'
  | 'b' => some '\x08'
  | 'f' => some '\x0c'
  | 'n' => some '\n'
  | 'r' => some '\r'
  | 't' => some '\t'
  | _ => none

/-- The parts of a string behind its opening quote, and what follows the closing one. -/
def stringParts? : List Char → Option (List StringPart × List Char)
  | [] => none
  | '\x22' :: cs => some ([], cs)
  | '\\' :: 'u' :: a :: b :: c :: d :: cs => do
    let n ← Text.numeral? 16 [a, b, c, d]
    let (parts, cs) ← stringParts? cs
    some (.unit n :: parts, cs)
  | '\\' :: e :: cs => do
    let c ← escape? e
    let (parts, cs) ← stringParts? cs
    some (.char c :: parts, cs)
  | c :: cs => do
    if c < ' ' || c == '\\' then none
    else
      let (parts, cs) ← stringParts? cs
      some (.char c :: parts, cs)

def isHighSurrogate (n : Nat) : Bool := 0xd800 ≤ n && n < 0xdc00

def isLowSurrogate (n : Nat) : Bool := 0xdc00 ≤ n && n < 0xe000

/-- The text that the parts make up, unless half of a surrogate pair is left alone. -/
def joinParts? : List StringPart → Option (List Char)
  | [] => some []
  | .char c :: parts => (joinParts? parts).map (c :: ·)
  | .unit high :: .unit low :: parts =>
    if isHighSurrogate high then
      if isLowSurrogate low then
        (joinParts? parts).map
          (.ofNat (0x10000 + (high - 0xd800) * 0x400 + (low - 0xdc00)) :: ·)
      else none
    else if isLowSurrogate high then none
    else (joinParts? (.unit low :: parts)).map (.ofNat high :: ·)
  | .unit n :: parts =>
    if isHighSurrogate n || isLowSurrogate n then none
    else (joinParts? parts).map (.ofNat n :: ·)

def string? (cs : List Char) : Option (Option String × List Char) :=
  (stringParts? cs).map fun (parts, cs) => ((joinParts? parts).map String.ofList, cs)

/-- One or more items with commas between them up to the closing bracket. Every item takes up a
character, so there is fuel enough if there is as much as text. -/
def items? {α : Type} (item : List Char → Option (α × List Char)) (close : Char) :
    Nat → List Char → Option (List α × List Char)
  | 0, _ => none
  | fuel + 1, cs => do
    let (a, cs) ← item cs
    match skipSpace cs with
    | ',' :: cs =>
      let (as, cs) ← items? item close fuel cs
      some (a :: as, cs)
    | c :: cs => if c == close then some ([a], cs) else none
    | [] => none

def enclosed? {α : Type} (item : List Char → Option (α × List Char)) (close : Char)
    (cs : List Char) : Option (List α × List Char) :=
  match skipSpace cs with
  | [] => none
  | c :: rest => if c == close then some ([], rest) else items? item close cs.length cs

def member? (value : List Char → Option (Json × List Char)) (cs : List Char) :
    Option ((Option String × Json) × List Char) := do
  match skipSpace cs with
  | '\x22' :: cs =>
    let (key, cs) ← string? cs
    match skipSpace cs with
    | ':' :: cs =>
      let (v, cs) ← value cs
      some ((key, v), cs)
    | _ => none
  | _ => none

/-- A value and what follows. The fuel bounds how deep it is nested. -/
def value? : Nat → List Char → Option (Json × List Char)
  | 0, _ => none
  | fuel + 1, cs =>
    match skipSpace cs with
    | 'n' :: cs => (expect? "ull" cs).map (.null, ·)
    | 't' :: cs => (expect? "rue" cs).map (.bool true, ·)
    | 'f' :: cs => (expect? "alse" cs).map (.bool false, ·)
    | '\x22' :: cs => (string? cs).map fun (text, cs) => (.string text, cs)
    | '[' :: cs => (enclosed? (value? fuel) ']' cs).map fun (items, cs) => (.array items, cs)
    | '\x7b' :: cs =>
      (enclosed? (member? (value? fuel)) '\x7d' cs).map fun (members, cs) => (.object members, cs)
    | cs => (numeral? cs).map fun (n, cs) => (.number n, cs)

/-- The value of a text that holds one and nothing else. -/
def parse? (text : String) : Option Json :=
  let cs := text.toList
  match value? (cs.length + 1) cs with
  | some (v, rest) => if (skipSpace rest).isEmpty then some v else none
  | none => none

end Barrage.Json

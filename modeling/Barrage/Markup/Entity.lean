import Barrage.Markup.Bytes
import Barrage.Text.Digits
import Barrage.Text.Utf8

namespace Barrage.Markup
open Text

/-- A character by its number, which is neither zero nor a surrogate. -/
def charOfNumber? (n : Nat) : Option Char :=
  if n ≠ 0 ∧ n.isValidChar then some (.ofNat n) else none

def entity? : List Char → Option Char
  | '#' :: 'x' :: digits => numeral? 16 digits >>= charOfNumber?
  | '#' :: digits => numeral? 10 digits >>= charOfNumber?
  | name =>
    match String.ofList name with
    | "lt" => some '<'
    | "gt" => some '>'
    | "amp" => some '&'
    | "quot" => some '\x22'
    | "apos" => some '\x27'
    | _ => none

/-- Text with its entities replaced; the first argument is the entity being read, backwards. -/
def unescapeFrom : Option (List Char) → List Char → Option (List Char)
  | none, [] => some []
  | some _, [] => none
  | none, '&' :: cs => unescapeFrom (some []) cs
  | none, c :: cs => (unescapeFrom none cs).map (c :: ·)
  | some name, ';' :: cs => do
    let c ← entity? name.reverse
    let rest ← unescapeFrom none cs
    some (c :: rest)
  | some _, '&' :: _ => none
  | some name, c :: cs => unescapeFrom (some (c :: name)) cs

/-- Text with its entities replaced; an `&` that begins none is refused. -/
def unescape? (cs : List Char) : Option (List Char) := unescapeFrom none cs

def plainText? (bs : Bytes) : Option String := do
  let cs ← decode? bs
  let cs ← unescape? cs
  some (.ofList cs)

end Barrage.Markup

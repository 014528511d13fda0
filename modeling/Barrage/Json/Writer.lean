import Barrage.Json.Basic

namespace Barrage

/-- An exponent is written with its sign, plus or minus. -/
def Numeral.render (n : Numeral) : String :=
  (if n.negative then "-" else "") ++ .ofList n.whole
    ++ (if n.fraction.isEmpty then "" else "." ++ .ofList n.fraction)
    ++ match n.exponent with
      | some (negative, digits) => "e" ++ (if negative then "-" else "+") ++ .ofList digits
      | none => ""

namespace Json

/-- Quotes, backslashes and control characters are escaped, nothing else is. -/
def escapeChar (c : Char) : List Char :=
  match c with
  | '\x22' => ['\\', '\x22']
  | '\\' => ['\\', '\\']
  | '\x08' => ['\\', 'b']
  | '\x0c' => ['\\', 'f']
  | '\n' => ['\\', 'n']
  | '\r' => ['\\', 'r']
  | '\t' => ['\\', 't']
  | c =>
    if c < ' ' then ['\\', 'u', '0', '0', Nat.digitChar (c.toNat / 16), Nat.digitChar (c.toNat % 16)]
    else [c]

def quote (text : String) : String :=
  "\"" ++ .ofList (text.toList.flatMap escapeChar) ++ "\""

/-- A text that cannot be written as it is stands as an escaped half of a surrogate pair. -/
def quote? (text : Option String) : String := (text.map quote).getD "\"\\ud800\""

def withComma : List String → List String
  | [] => []
  | [line] => [line ++ ","]
  | line :: lines => line :: withComma lines

def withLabel (label : String) : List String → List String
  | [] => []
  | line :: lines => (label ++ line) :: lines

/-- Groups of lines between brackets, two spaces further in, with commas between the groups. -/
def bracketed (opening closing : String) (groups : List (List String)) : List String :=
  match groups.reverse with
  | [] => [opening ++ closing]
  | last :: before =>
    [opening] ++ ((before.reverse.map withComma) ++ [last]).flatten.map ("  " ++ ·) ++ [closing]

mutual

/-- The lines of a value, with one item on each. -/
def lines : Json → List String
  | .null => ["null"]
  | .bool value => [if value then "true" else "false"]
  | .number value => [value.render]
  | .string text => [quote? text]
  | .array items => bracketed "[" "]" (itemLines items)
  | .object members => bracketed "\x7b" "\x7d" (memberLines members)

def itemLines : List Json → List (List String)
  | [] => []
  | item :: items => item.lines :: itemLines items

def memberLines : List (Option String × Json) → List (List String)
  | [] => []
  | (key, value) :: members => withLabel (quote? key ++ ": ") value.lines :: memberLines members

end

def render (value : Json) : String := "\n".intercalate value.lines

end Json
end Barrage

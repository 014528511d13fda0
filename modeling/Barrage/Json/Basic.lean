namespace Barrage

/-- A number as it is written. The fraction is empty where no point is written, and the exponent
holds its sign, true for minus, and its digits. -/
structure Numeral where
  negative : Bool
  whole : List Char
  fraction : List Char
  exponent : Option (Bool × List Char)
deriving DecidableEq, Repr

/-- A document. A string or key with half of a surrogate pair in it is no text. -/
inductive Json where
  | null
  | bool (value : Bool)
  | number (value : Numeral)
  | string (text : Option String)
  | array (items : List Json)
  | object (members : List (Option String × Json))

end Barrage

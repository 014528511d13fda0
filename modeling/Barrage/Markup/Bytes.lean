namespace Barrage.Markup

abbrev Bytes := List UInt8

def ascii (s : String) : Bytes := s.toList.map fun c => c.toNat.toUInt8

/-- Space, tab, line feed and carriage return. -/
def isSpace (b : UInt8) : Bool := b == 0x20 || b == 0x09 || b == 0x0a || b == 0x0d

def trimEnd (bs : Bytes) : Bytes := (bs.reverse.dropWhile isSpace).reverse

/-- What stands before the first occurrence of `stop`, and what stands behind it. -/
def cut? (stop : Bytes) : Bytes → Option (Bytes × Bytes)
  | [] => if stop.isEmpty then some ([], []) else none
  | b :: bs =>
    if stop.isPrefixOf (b :: bs) then some ([], (b :: bs).drop stop.length)
    else (cut? stop bs).map fun (before, behind) => (b :: before, behind)

/-- What follows the first colon, if there is one. -/
def localName (name : Bytes) : Bytes :=
  match cut? [0x3a] name with
  | some (_, behind) => behind
  | none => name

end Barrage.Markup

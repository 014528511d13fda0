namespace Barrage.Text

def digitsValue (cs : List Char) : Nat :=
  cs.foldl (fun n c => 10 * n + (c.toNat - '0'.toNat)) 0

def digit? (c : Char) : Option Nat :=
  if c.isDigit then some (c.toNat - '0'.toNat)
  else if 'a' ≤ c && c ≤ 'f' then some (c.toNat - 'a'.toNat + 10)
  else if 'A' ≤ c && c ≤ 'F' then some (c.toNat - 'A'.toNat + 10)
  else none

/-- A number in the given base, of at least one digit. -/
def numeral? (base : Nat) (cs : List Char) : Option Nat := do
  let digits ← cs.mapM digit?
  if digits.isEmpty || digits.any (base ≤ ·) then none
  else some (digits.foldl (base * · + ·) 0)

end Barrage.Text

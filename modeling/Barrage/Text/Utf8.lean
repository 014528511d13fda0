namespace Barrage.Text

/-- What the first byte of a character promises: its own bits, how many bytes follow, and the
range of the first of them. -/
structure LeadByte where
  bits : Nat
  tails : Nat
  low : UInt8
  high : UInt8

def leadByte? (b : UInt8) : Option LeadByte :=
  if b < 0x80 then some ⟨b.toNat, 0, 0x80, 0xbf⟩
  else if b < 0xc2 then none
  else if b < 0xe0 then some ⟨b.toNat - 0xc0, 1, 0x80, 0xbf⟩
  else if b == 0xe0 then some ⟨0, 2, 0xa0, 0xbf⟩
  else if b == 0xed then some ⟨0xd, 2, 0x80, 0x9f⟩
  else if b < 0xf0 then some ⟨b.toNat - 0xe0, 2, 0x80, 0xbf⟩
  else if b == 0xf0 then some ⟨0, 3, 0x90, 0xbf⟩
  else if b < 0xf4 then some ⟨b.toNat - 0xf0, 3, 0x80, 0xbf⟩
  else if b == 0xf4 then some ⟨4, 3, 0x80, 0x8f⟩
  else none

/-- The character whose first byte has been read, or none once a byte is out of its range. The
bytes that were in range are consumed either way. -/
def readTails : Nat → UInt8 → UInt8 → Nat → List UInt8 → Option Char × List UInt8
  | 0, _, _, bits, bs => (some (.ofNat bits), bs)
  | _ + 1, _, _, _, [] => (none, [])
  | tails + 1, low, high, bits, b :: bs =>
    if low ≤ b && b ≤ high then readTails tails 0x80 0xbf (bits * 64 + (b.toNat - 0x80)) bs
    else (none, b :: bs)

/-- The characters of a byte sequence, with none for each ill-formed part. One unit of fuel is
spent on each, and each takes up a byte. -/
def readChars : Nat → List UInt8 → List (Option Char)
  | 0, _ => []
  | _ + 1, [] => []
  | fuel + 1, b :: bs =>
    match leadByte? b with
    | none => none :: readChars fuel bs
    | some lead =>
      let (c, bs) := readTails lead.tails lead.low lead.high lead.bits bs
      c :: readChars fuel bs

def decode? (bs : List UInt8) : Option (List Char) :=
  (readChars bs.length bs).mapM id

/-- The text of UTF-8 with `U+FFFD` in place of each ill-formed part. -/
def decodeLossy (bs : List UInt8) : String :=
  .ofList ((readChars bs.length bs).map (·.getD (.ofNat 0xfffd)))

end Barrage.Text

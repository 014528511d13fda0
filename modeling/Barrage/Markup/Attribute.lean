import Barrage.Markup.Bytes

namespace Barrage.Markup

structure Attribute where
  key : Bytes
  value : Bytes
deriving DecidableEq, Repr

/-- The value behind the equals sign of an attribute, in quotes of either kind, and what follows. -/
def attributeValue? (bs : Bytes) : Option (Bytes × Bytes) :=
  match bs.dropWhile isSpace with
  | quote :: bs => if quote == 0x22 || quote == 0x27 then cut? [quote] bs else none
  | [] => none

/-- The attribute that starts at the first byte, and what follows. Its key is never empty. -/
def attribute? : Bytes → Option (Attribute × Bytes)
  | [] => none
  | b :: bs =>
    let inKey (b : UInt8) : Bool := b != 0x3d && !isSpace b
    let key := b :: bs.takeWhile inKey
    match (bs.dropWhile inKey).dropWhile isSpace with
    | 0x3d :: bs => (attributeValue? bs).map fun (value, rest) => (⟨key, value⟩, rest)
    | _ => none

/-- The attributes of a tag up to the first that is malformed or repeats a key. -/
structure AttributeScan where
  attributes : List Attribute
  complete : Bool

/-- Reads attributes with at least as much fuel as there are bytes: every round takes one up. -/
def attributesFrom : Nat → List Bytes → Bytes → AttributeScan
  | 0, _, bs => ⟨[], (bs.dropWhile isSpace).isEmpty⟩
  | fuel + 1, keys, bs =>
    match bs.dropWhile isSpace with
    | [] => ⟨[], true⟩
    | bs =>
      match attribute? bs with
      | none => ⟨[], false⟩
      | some (a, rest) =>
        if keys.contains a.key then ⟨[], false⟩
        else
          let scan := attributesFrom fuel (a.key :: keys) rest
          { scan with attributes := a :: scan.attributes }

def attributes (bs : Bytes) : AttributeScan := attributesFrom bs.length [] bs

end Barrage.Markup

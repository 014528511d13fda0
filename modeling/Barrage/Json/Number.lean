import Barrage.Json.Basic
import Barrage.Number.Shortest
import Barrage.Text.Digits

namespace Barrage

namespace Numeral
open Text

def isInteger (n : Numeral) : Bool := n.fraction.isEmpty && n.exponent.isNone

/-- A whole number that fits into 64 bits. -/
def toUInt64? (n : Numeral) : Option UInt64 :=
  let value := digitsValue n.whole
  if n.isInteger && !n.negative && value < UInt64.size then some (.ofNat value) else none

/-- Collects digits as long as the number they make up fits into 64 bits, and leaves the others. -/
def collect (start : Nat) : List Char → Nat × List Char
  | [] => (start, [])
  | c :: cs =>
    let next := 10 * start + (c.toNat - '0'.toNat)
    if next < UInt64.size then collect next cs else (start, c :: cs)

/-- The number as `m * 10 ^ e` with `m` in 64 bits. Whole digits that do not fit count as zeros, and
digits of the fraction that do not fit are cut off. -/
def decimal (n : Numeral) : Decimal :=
  let (whole, skipped) := collect 0 n.whole
  let (digits, cut) := collect whole n.fraction
  let exponent : Int := match n.exponent with
    | some (true, ds) => -digitsValue ds
    | some (false, ds) => digitsValue ds
    | none => 0
  ⟨digits, skipped.length - (n.fraction.length - cut.length : Nat) + exponent⟩

def powerOfTen (n : Nat) : Float := .ofScientific 1 false n

/-- `m * 10 ^ e` by one multiplication or by divisions by powers of ten that are in range, each of
them rounded; too large a number is none. -/
def scale? (m : Nat) (e : Int) : Option Float :=
  let x := (UInt64.ofNat m).toFloat
  match e with
  | .ofNat e =>
    if m == 0 then some x
    else if 308 < e then none
    else
      let y := x * powerOfTen e
      if y.isInf then none else some y
  | .negSucc e =>
    if e + 1 ≤ 308 then some (x / powerOfTen (e + 1))
    else if e + 1 ≤ 616 then some (x / powerOfTen 308 / powerOfTen (e + 1 - 308))
    else some 0

def toFloat? (n : Numeral) : Option Float :=
  let d := n.decimal
  (scale? d.digits d.exponent).map fun x => if n.negative then -x else x

/-- A number in single precision. Whole numbers in 64 bits, with their sign, are rounded once; all
others are read in double precision first. -/
def toFloat32? (n : Numeral) : Option Float32 :=
  let value := digitsValue n.whole
  if n.isInteger && !n.negative && value < UInt64.size then
    some (Binary32.ofDyadic .positive value 0)
  else if n.isInteger && n.negative && 0 < value && 2 * value ≤ UInt64.size then
    some (Binary32.ofDyadic .negative value 0)
  else n.toFloat?.map Binary32.ofDouble

def ofNat (n : Nat) : Numeral := ⟨false, Nat.toDigits 10 n, [], none⟩

/-- A decimal written with a point if its magnitude is at least a millionth and below ten to the
thirteenth, and with an exponent otherwise. -/
def ofDecimal (negative : Bool) (d : Decimal) : Numeral :=
  let digits := Nat.toDigits 10 d.digits
  let point : Int := digits.length + d.exponent
  if 0 < point ∧ point ≤ 13 then
    if 0 ≤ d.exponent then
      ⟨negative, digits ++ List.replicate d.exponent.toNat '0', ['0'], none⟩
    else ⟨negative, digits.take point.toNat, digits.drop point.toNat, none⟩
  else if -6 < point ∧ point ≤ 0 then
    ⟨negative, ['0'], List.replicate (-point).toNat '0' ++ digits, none⟩
  else
    let e := point - 1
    ⟨negative, digits.take 1, digits.drop 1, some (e < 0, Nat.toDigits 10 e.natAbs)⟩

end Numeral

namespace Json

def ofNat (n : Nat) : Json := .number (.ofNat n)

def ofString (s : String) : Json := .string (some s)

/-- The shortest decimal that reads back; what is not finite has none. -/
def ofFloat32 (x : Float32) : Json :=
  match Binary32.shortest? x with
  | some (negative, d) => .number (.ofDecimal negative d)
  | none => .null

end Json
end Barrage

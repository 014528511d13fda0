import Barrage.Number.Binary32

namespace Barrage

/-- The number `digits * 10 ^ exponent`. -/
structure Decimal where
  digits : Nat
  exponent : Int
deriving DecidableEq, Repr

namespace Binary32

/-- Numbers `a * 2 ^ power` around a value: those between `low` and `high` round to it, and so do
the two ends themselves if `closed`. -/
structure Interval where
  low : Nat
  value : Nat
  high : Nat
  power : Int
  closed : Bool

/-- The numbers that round to `m * 2 ^ e`, in quarters of its last place. Below a power of two the
numbers lie twice as close. -/
def Interval.around (m : Nat) (e : Int) : Interval where
  low := if m == 1 <<< 23 && -149 < e then 4 * m - 1 else 4 * m - 2
  value := 4 * m
  high := 4 * m + 2
  power := e - 2
  closed := m % 2 == 0

namespace Interval

/-- What a multiple of `10 ^ k` has to be multiplied by to be compared with a multiple of
`2 ^ power`. -/
def gridFactor (i : Interval) (k : Int) : Nat := Nat.pow 10 k.toNat <<< (-i.power).toNat

/-- What a multiple of `2 ^ power` has to be multiplied by to be compared with a multiple of
`10 ^ k`. -/
def valueFactor (i : Interval) (k : Int) : Nat := Nat.pow 10 (-k).toNat <<< i.power.toNat

def contains (i : Interval) (k : Int) (digits : Nat) : Bool :=
  let x := digits * i.gridFactor k
  let low := i.low * i.valueFactor k
  let high := i.high * i.valueFactor k
  if i.closed then low ≤ x && x ≤ high else low < x && x < high

/-- The multiple of `10 ^ k` in the interval that is nearest to the value; of two that are equally
near, the even one. -/
def nearest? (i : Interval) (k : Int) : Option Nat :=
  let grid := i.gridFactor k
  let value := i.value * i.valueFactor k
  let below := value / grid
  let above := below + 1
  let toBelow := value - below * grid
  let toAbove := above * grid - value
  let preferBelow := toBelow < toAbove || (toBelow == toAbove && below % 2 == 0)
  match i.contains k below, i.contains k above with
  | true, true => some (if preferBelow then below else above)
  | true, false => some below
  | false, true => some above
  | false, false => none

/-- The decimal with the fewest digits in the interval, tried from the coarsest grid to one on which
every value has an entry. -/
def shortest (i : Interval) : Decimal :=
  let found := (List.range 100).findSome? fun (n : Nat) =>
    let k : Int := 39 - n
    (i.nearest? k).map (⟨·, k⟩)
  found.getD ⟨0, 0⟩

end Interval

/-- The sign of a finite number and the shortest decimal that reads back as its magnitude. -/
def shortest? (x : Float32) : Option (Bool × Decimal) :=
  match x.toModel.unpack with
  | .finite sign m e _ => some (sign == .negative, (Interval.around m e).shortest)
  | .zero sign => some (sign == .negative, ⟨0, 0⟩)
  | _ => none

end Binary32
end Barrage

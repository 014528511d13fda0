import Barrage.Number.Binary32
import Barrage.Number.Random

namespace Barrage

inductive Op where
  | add
  | sub
  | mul
  | div
  | rem
deriving DecidableEq, Repr

/-- A value expression of a pattern. Parameters are counted from zero. -/
inductive Expr where
  | const (value : Float32)
  | param (index : Nat)
  | rand
  | rank
  | direction
  | speed
  | neg (operand : Expr)
  | binary (op : Op) (lhs rhs : Expr)
deriving Inhabited

/-- Magnitudes below this are taken for zero. -/
def epsilon : Float32 := 1e-4

/-- A divisor that counts as zero makes the quotient and the remainder zero. -/
def Op.apply : Op → Float32 → Float32 → Float32
  | .add, a, b => a + b
  | .sub, a, b => a - b
  | .mul, a, b => a * b
  | .div, a, b => if b.abs < epsilon then 0 else a / b
  | .rem, a, b => if b.abs < epsilon then 0 else Binary32.rem a b

/-- What an expression reads besides the random numbers; the direction is in degrees. -/
structure Scope where
  params : List Float32
  rank : Float32
  direction : Float32
  speed : Float32

/-- Random numbers are drawn from left to right; a parameter that is not there reads as zero. -/
def Expr.eval (scope : Scope) : Expr → Random → Float32 × Random
  | .const v, r => (v, r)
  | .param i, r => (scope.params[i]?.getD 0, r)
  | .rand, r => r.uniform
  | .rank, r => (scope.rank, r)
  | .direction, r => (scope.direction, r)
  | .speed, r => (scope.speed, r)
  | .neg e, r =>
    let (v, r) := e.eval scope r
    (-v, r)
  | .binary op a b, r =>
    let (x, r) := a.eval scope r
    let (y, r) := b.eval scope r
    (op.apply x y, r)

end Barrage

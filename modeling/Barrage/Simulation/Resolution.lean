import Barrage.Expr.Basic
import Barrage.Geometry
import Barrage.Pattern.Element
import Barrage.Simulation.Context

namespace Barrage

/-- What a fire's values combine with; angles are in degrees. -/
structure FireInputs where
  direction : Float32
  speed : Float32
  aim : Float32
  sequence : SequenceState

namespace FireInputs

/-- The direction of a fired bullet: a fire without one aims, and so does one without a mode. -/
def resolveDirection (i : FireInputs) (mode : Option Mode) : Option Float32 → Float32
  | none => i.aim
  | some v =>
    match mode with
    | some .absolute => v
    | some .relative => i.direction + v
    | some .sequence => i.sequence.lastDirection + v
    | some .aim | none => i.aim + v

/-- The speed of a fired bullet: without one of its own it has the speed of the bullet that fires
it, unless that counts as zero. -/
def resolveSpeed (i : FireInputs) (mode : Option Mode) : Option Float32 → Float32
  | none => if i.speed.abs < epsilon then 0 else i.speed
  | some v =>
    match mode with
    | some .relative => i.speed + v
    | some .sequence => i.sequence.lastSpeed + v
    | some .absolute | some .aim | none => v

end FireInputs

/-- A term as a divisor: at least one frame. -/
def termDivisor (term : UInt32) : Float32 := (if term == 0 then 1 else term).toFloat32

/-- The change of direction in degrees per frame; an absolute or aimed one takes the short way. -/
def directionRamp (mode : Option Mode) (value current aim : Float32) (term : UInt32) : Float32 :=
  match mode with
  | some .absolute => Angle.normalize (value - current) / termDivisor term
  | some .relative => value / termDivisor term
  | some .sequence => value
  | some .aim | none => Angle.normalize (aim + value - current) / termDivisor term

/-- The change of a speed or of one axis of a velocity per frame. -/
def linearRamp (mode : Option Mode) (value current : Float32) (term : UInt32) : Float32 :=
  match mode with
  | some .relative => value / termDivisor term
  | some .sequence => value
  | some .absolute | some .aim | none => (value - current) / termDivisor term

end Barrage

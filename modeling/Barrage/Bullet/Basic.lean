import Barrage.Geometry
import Barrage.Handle
import Barrage.Pattern.Basic

namespace Barrage

/-- A bullet in flight. Its direction is in radians, its speed in pixels per reference frame. -/
structure Bullet where
  id : BulletId
  pos : Point
  direction : Float32
  speed : Float32
  extraVelocity : Point
  tasks : List TaskId
  age : Nat
  pattern : Option Pattern
  vanished : Bool

namespace Bullet

def atRest (id : BulletId) : Bullet where
  id
  pos := .zero
  direction := 0
  speed := 0
  extraVelocity := .zero
  tasks := []
  age := 0
  pattern := none
  vanished := false

def degrees (b : Bullet) : Float32 := Angle.toDegrees b.direction

/-- The displacement in one reference frame. -/
def velocity (b : Bullet) : Point := (Angle.heading b.direction).scale b.speed + b.extraVelocity

def vanish (b : Bullet) : Bullet := { b with vanished := true }

/-- One frame of flight, `scale` reference frames long. -/
def move (b : Bullet) (scale : Float32) : Bullet :=
  { b with pos := b.pos + b.velocity.scale scale, age := b.age + 1 }

end Bullet
end Barrage

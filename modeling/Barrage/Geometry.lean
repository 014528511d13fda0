import Barrage.Number.Binary32

namespace Barrage

/-- A point or displacement in screen coordinates: x to the right, y downward. -/
structure Point where
  x : Float32
  y : Float32

namespace Point

def zero : Point := ⟨0, 0⟩

instance : Add Point := ⟨fun p q => ⟨p.x + q.x, p.y + q.y⟩⟩

instance : Sub Point := ⟨fun p q => ⟨p.x - q.x, p.y - q.y⟩⟩

def scale (p : Point) (k : Float32) : Point := ⟨p.x * k, p.y * k⟩

end Point

namespace Angle

def toRadians (degrees : Float32) : Float32 := degrees * .ofBits 0x3c8efa35

def toDegrees (radians : Float32) : Float32 := radians * .ofBits 0x42652ee1

/-- The equal angle in `(-180, 180]`. -/
def normalize (degrees : Float32) : Float32 :=
  let wrapped := Binary32.remEuclid degrees 360
  if 180 < wrapped then wrapped - 360 else wrapped

/-- The unit displacement along a direction in radians: zero points up, positive turns clockwise. -/
def heading (radians : Float32) : Point :=
  ⟨radians.toFloat.sin.toFloat32, -radians.toFloat.cos.toFloat32⟩

/-- The direction in degrees in which `target` is seen from `eye`. -/
def aim (eye target : Point) : Float32 :=
  let d := target - eye
  toDegrees (Float.atan2 d.x.toFloat (-d.y).toFloat).toFloat32

end Angle

/-- An axis-aligned rectangle, given by its corners. -/
structure Bounds where
  min : Point
  max : Point

namespace Bounds

def lesser (a b : Float32) : Float32 := if a < b then a else b

def greater (a b : Float32) : Float32 := if b < a then a else b

/-- The rectangle spanned by two opposite corners in either order. -/
def ofCorners (a b : Point) : Bounds where
  min := ⟨lesser a.x b.x, lesser a.y b.y⟩
  max := ⟨greater a.x b.x, greater a.y b.y⟩

def size (b : Bounds) : Point := b.max - b.min

def center (b : Bounds) : Point := (b.min + b.max).scale 0.5

/-- Inside the rectangle, or at most `margin` beyond one of its edges. -/
def contains (b : Bounds) (p : Point) (margin : Float32) : Bool :=
  b.min.x - margin ≤ p.x && b.min.y - margin ≤ p.y
    && p.x ≤ b.max.x + margin && p.y ≤ b.max.y + margin

end Bounds
end Barrage

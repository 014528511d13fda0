namespace Barrage.Binary32
open Float.Model

/-- The number nearest to `m * 2 ^ e` under the given sign; a tie goes to the even mantissa. -/
def ofDyadic (sign : UnpackedFloat.Sign) (m : Nat) (e : Int) : Float32 :=
  .ofModel (.pack (.round .binary32 sign m e))

/-- The number nearest to `m * 10 ^ e`; a tie goes to the even mantissa. -/
def ofDecimal (m : Nat) (e : Int) : Float32 :=
  .ofModel (.ofScientific m e)

def nan : Float32 := .ofBits 0x7fc00000

def ofDouble (x : Float) : Float32 :=
  match x.toModel.unpack with
  | .finite sign m e _ => ofDyadic sign m e
  | .zero sign => ofDyadic sign 0 0
  | .infinity .positive => .ofBits 0x7f800000
  | .infinity .negative => .ofBits 0xff800000
  | .notANumber => nan

/-- The remainder of the quotient truncated toward zero, with the sign of the dividend. -/
def rem (x y : Float32) : Float32 :=
  match x.toModel.unpack, y.toModel.unpack with
  | .finite sign m e _, .finite _ n f _ =>
    let low := min e f
    ofDyadic sign ((m <<< (e - low).toNat) % (n <<< (f - low).toNat)) low
  | .finite .., .infinity _ => x
  | .zero _, .finite .. => x
  | .zero _, .infinity _ => x
  | _, _ => nan

/-- The remainder brought into `[0, y)` for a positive `y`. -/
def remEuclid (x y : Float32) : Float32 :=
  let r := rem x y
  if r < 0 then r + y else r

/-- `m * 2 ^ e` to the nearest whole number, a half upward. -/
def roundDyadic (m : Nat) : Int → Nat
  | .ofNat e => m <<< e
  | .negSucc e => (m + (1 <<< e)) >>> (e + 1)

/-- The nearest whole number, a half upward, capped at the largest 32-bit count.
What is not a finite positive number counts as zero. -/
def toCount (x : Float32) : UInt32 :=
  match x.toModel.unpack with
  | .finite .positive m e _ => .ofNat (min (roundDyadic m e) (UInt32.size - 1))
  | _ => 0

/-- The nearest point of `[0, 1]`; a number that compares with neither end stays as it is. -/
def clampUnit (x : Float32) : Float32 :=
  if x < 0 then 0 else if 1 < x then 1 else x

end Barrage.Binary32

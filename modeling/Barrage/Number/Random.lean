namespace Barrage

/-- A linear congruential generator on 64-bit words whose output is a permuted 32-bit word. -/
structure Random where
  state : UInt64
  increment : UInt64
deriving DecidableEq, Repr

namespace Random

def multiplier : UInt64 := 6364136223846793005

def rotateRight (x r : UInt32) : UInt32 :=
  (x >>> r) ||| (x <<< (32 - r))

/-- The high bits folded onto the low ones and rotated by the topmost five. -/
def permute (s : UInt64) : UInt32 :=
  rotateRight (((s >>> 18) ^^^ s) >>> 27).toUInt32 (s >>> 59).toUInt32

def stretch (s : UInt64) : UInt64 :=
  s * multiplier + 11634580027462260723

def join (low high : UInt32) : UInt64 :=
  low.toUInt64 ||| (high.toUInt64 <<< 32)

def ofSeed (seed : UInt64) : Random :=
  let s₁ := stretch seed
  let s₂ := stretch s₁
  let s₃ := stretch s₂
  let s₄ := stretch s₃
  let start := join (permute s₁) (permute s₂)
  let increment := join (permute s₃) (permute s₄) ||| 1
  ⟨(start + increment) * multiplier + increment, increment⟩

def next (r : Random) : UInt32 × Random :=
  (permute r.state, { r with state := r.state * multiplier + r.increment })

/-- A multiple of `2 ^ -24` in `[0, 1)`, from the upper bits of one word. -/
def uniform (r : Random) : Float32 × Random :=
  let (word, r) := r.next
  ((word >>> 8).toFloat32 * .ofBits 0x33800000, r)

end Random
end Barrage

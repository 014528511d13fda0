import Barrage.Geometry

namespace Barrage

inductive Difficulty where
  | easy
  | normal
  | hard
  | lunatic
deriving DecidableEq, Repr

namespace Difficulty

def all : List Difficulty := [.easy, .normal, .hard, .lunatic]

def name : Difficulty → String
  | .easy => "Easy"
  | .normal => "Normal"
  | .hard => "Hard"
  | .lunatic => "Lunatic"

def ofName? (s : String) : Option Difficulty :=
  all.find? fun d => d.name == s

/-- A difficulty as a person types it: in any case, and `norm` for short. Only letters of ASCII have
these for their small forms. -/
def ofWord? (s : String) : Option Difficulty :=
  match s.map Char.toLower with
  | "easy" => some .easy
  | "normal" | "norm" => some .normal
  | "hard" => some .hard
  | "lunatic" => some .lunatic
  | _ => none

def rank : Difficulty → Float32
  | .easy => 0.25
  | .normal => 0.5
  | .hard => 0.75
  | .lunatic => 1

def maxBullets : Difficulty → Nat
  | .easy => 256
  | .normal => 512
  | .hard => 1024
  | .lunatic => 2048

end Difficulty

/-- What a run is set up with. The rank and the number of bullets follow the difficulty unless they
are given; without a playfield nothing is culled. -/
structure Settings where
  difficulty : Difficulty
  rank : Option Float32
  maxBullets : Option UInt64
  seed : UInt64
  playfield : Option Bounds
  cullMargin : Float32
  patternDir : String

namespace Settings

def ofDifficulty (difficulty : Difficulty) : Settings where
  difficulty
  rank := none
  maxBullets := none
  seed := 0x5eed
  playfield := some (.ofCorners .zero ⟨480, 640⟩)
  cullMargin := 32
  patternDir := "patterns"

def default : Settings := ofDifficulty .normal

/-- Changes the difficulty and drops what would override it. -/
def applyDifficulty (s : Settings) (difficulty : Difficulty) : Settings :=
  { s with difficulty, rank := none, maxBullets := none }

def effectiveRank (s : Settings) : Float32 :=
  Binary32.clampUnit (s.rank.getD s.difficulty.rank)

def effectiveMaxBullets (s : Settings) : Nat :=
  match s.maxBullets with
  | some n => n.toNat
  | none => s.difficulty.maxBullets

end Settings
end Barrage

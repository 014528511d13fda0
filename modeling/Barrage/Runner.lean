import Barrage.Library.Basic
import Barrage.Settings.Codec
import Barrage.Simulation.Frame

namespace Barrage

def Simulation.ofSettings (s : Settings) : Simulation :=
  .init s.effectiveMaxBullets s.seed s.effectiveRank s.playfield s.cullMargin

namespace Runner
open Text

def settingsFile : String := "danmaku.json"

def defaultFrames : Nat := 600

inductive Command where
  | usage
  | play (name : String) (frames : Nat)
deriving DecidableEq, Repr

/-- A number of frames in 64 bits, with or without a plus sign. -/
def frames? (arg : String) : Option Nat :=
  let digits := match arg.toList with
    | '+' :: cs => cs
    | cs => cs
  let n := digitsValue digits
  if !digits.isEmpty && digits.all Char.isDigit && n < UInt64.size then some n else none

def Command.ofArgs : List String → Command
  | [] => .usage
  | [name] => .play name defaultFrames
  | name :: frames :: _ => .play name ((frames? frames).getD defaultFrames)

structure Summary where
  pattern : String
  frames : Nat
  rank : Float32
  stats : SpawnStats
  bullets : List Bullet

def bulletJson (b : Bullet) : Json :=
  .object [
    (some "id", .object [
      (some "idx", .ofNat b.id.index),
      (some "generation", .ofNat b.id.generation.toNat)]),
    (some "pos", b.pos.toJson),
    (some "direction", .ofFloat32 b.direction),
    (some "speed", .ofFloat32 b.speed)]

def Summary.toJson (s : Summary) : Json :=
  .object [
    (some "pattern", .ofString s.pattern),
    (some "frames", .ofNat s.frames),
    (some "rank", .ofFloat32 s.rank),
    (some "stats", .object [
      (some "fired", .ofNat s.stats.fired),
      (some "dropped", .ofNat s.stats.dropped),
      (some "recycled", .ofNat s.stats.recycled)]),
    (some "bullets", .array (s.bullets.map bulletJson))]

/-- Where a pattern starts and what it aims at: near the top and the bottom of the playfield. -/
def stage : Option Bounds → Point × Point
  | some field =>
    let x := field.center.x
    (⟨x, field.min.y + field.size.y * 0.2⟩, ⟨x, field.min.y + field.size.y * 0.85⟩)
  | none => (.zero, ⟨0, 400⟩)

/-- So many reference frames. -/
def advance : Nat → Simulation → Simulation
  | 0, s => s
  | n + 1, s => advance n (s.update frameTime)

def play (settings : Settings) (p : Pattern) (frames : Nat) : Except PatternError Summary :=
  let (origin, target) := stage settings.playfield
  match ((Simulation.ofSettings settings).setTarget target).spawn p origin with
  | (.error e, _) => .error e
  | (.ok _, s) =>
    let s := advance frames s
    .ok ⟨p.name, s.frame, s.context.rank, s.context.stats, s.bullets⟩

inductive Output where
  | text (text : String)
  | summary (summary : Summary)

structure Outcome where
  output : Output
  error : Option PatternError

def Output.render : Output → String
  | .text s => s
  | .summary s => s.toJson.render ++ "\n"

def usageText (dir : String) : String :=
  "usage: danmaku <pattern-name> [frames]\npatterns in " ++ dir ++ ":\n"

/-- The whole program, given its settings and the source of its patterns. -/
def run (settings : Settings) (source : Source) : Command → Outcome
  | .usage =>
    let usage := usageText settings.patternDir
    match source.names with
    | .ok names => ⟨.text (usage ++ .join (names.map fun n => "  " ++ n ++ "\n")), none⟩
    | .error e => ⟨.text usage, some e⟩
  | .play name frames =>
    match ((Library.ofSource source).load name).1.result with
    | .error e => ⟨.text "", some e⟩
    | .ok loaded =>
      match play settings loaded.pattern frames with
      | .ok summary => ⟨.summary summary, none⟩
      | .error e => ⟨.text "", some e⟩

end Runner
end Barrage

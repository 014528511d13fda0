import Barrage.Json.Number
import Barrage.Json.Reader
import Barrage.Json.Writer
import Barrage.Settings.Basic

namespace Barrage

namespace Json

def toFloat32? : Json → Option Float32
  | .number n => n.toFloat32?
  | _ => none

def toUInt64? : Json → Option UInt64
  | .number n => n.toUInt64?
  | _ => none

def toString? : Json → Option String
  | .string text => text
  | _ => none

/-- A value that may be absent by being `null`. -/
def toOption? {α : Type} (decode : Json → Option α) : Json → Option (Option α)
  | .null => some none
  | value => (decode value).map some

/-- The value of a key, which may be missing but not be repeated. -/
def field? (members : List (Option String × Json)) (name : String) : Option (Option Json) :=
  match members.filter fun m => m.1 == some name with
  | [] => some none
  | [(_, value)] => some (some value)
  | _ => none

/-- The fields of a record, in the order of their names: by key from an object, whose other keys are
ignored, and by position from an array, which may stop early. -/
def fields? (names : List String) : Json → Option (List (Option Json))
  | .object members =>
    if members.all (·.1.isSome) then names.mapM (field? members) else none
  | .array items =>
    if items.length ≤ names.length then
      some ((List.range names.length).map (items[·]?))
    else none
  | _ => none

end Json

namespace Point

def ofJson? : Json → Option Point
  | .array [x, y] => do
    let x ← x.toFloat32?
    let y ← y.toFloat32?
    some ⟨x, y⟩
  | _ => none

def toJson (p : Point) : Json := .array [.ofFloat32 p.x, .ofFloat32 p.y]

end Point

namespace Bounds

def fieldNames : List String := ["min", "max"]

/-- Both corners are needed, and they stay as they are given. -/
def ofJson? (value : Json) : Option Bounds := do
  match ← value.fields? fieldNames with
  | [some min, some max] =>
    let min ← Point.ofJson? min
    let max ← Point.ofJson? max
    some ⟨min, max⟩
  | _ => none

def toJson (b : Bounds) : Json :=
  .object [(some "min", b.min.toJson), (some "max", b.max.toJson)]

end Bounds

/-- A difficulty is its name, or an object that gives the name nothing. -/
def Difficulty.ofJson? : Json → Option Difficulty
  | .string (some name) => ofName? name
  | .object [(some name, .null)] => ofName? name
  | _ => none

namespace Settings

def fieldNames : List String :=
  ["difficulty", "rank", "max_bullets", "seed", "playfield", "cull_margin", "pattern_dir"]

/-- A field that is missing keeps its default. -/
def fieldOr {α : Type} (default : α) (decode : Json → Option α) : Option Json → Option α
  | none => some default
  | some value => decode value

def ofJson? (value : Json) : Option Settings := do
  match ← value.fields? fieldNames with
  | [difficulty, rank, maxBullets, seed, playfield, cullMargin, patternDir] =>
    let difficulty ← fieldOr default.difficulty Difficulty.ofJson? difficulty
    let rank ← fieldOr default.rank (Json.toOption? Json.toFloat32?) rank
    let maxBullets ← fieldOr default.maxBullets (Json.toOption? Json.toUInt64?) maxBullets
    let seed ← fieldOr default.seed Json.toUInt64? seed
    let playfield ← fieldOr default.playfield (Json.toOption? Bounds.ofJson?) playfield
    let cullMargin ← fieldOr default.cullMargin Json.toFloat32? cullMargin
    let patternDir ← fieldOr default.patternDir Json.toString? patternDir
    some ⟨difficulty, rank, maxBullets, seed, playfield, cullMargin, patternDir⟩
  | _ => none

def toJson (s : Settings) : Json :=
  .object [
    (some "difficulty", .ofString s.difficulty.name),
    (some "rank", (s.rank.map Json.ofFloat32).getD .null),
    (some "max_bullets", (s.maxBullets.map fun n => Json.ofNat n.toNat).getD .null),
    (some "seed", .ofNat s.seed.toNat),
    (some "playfield", (s.playfield.map Bounds.toJson).getD .null),
    (some "cull_margin", .ofFloat32 s.cullMargin),
    (some "pattern_dir", .ofString s.patternDir)]

def parse? (text : String) : Option Settings := Json.parse? text >>= ofJson?

def render (s : Settings) : String := s.toJson.render

/-- Settings from the text of a file, or the default ones if there is no such file or no settings in
it. -/
def load (file : Option String) : Settings := (file.bind parse?).getD default

end Settings
end Barrage

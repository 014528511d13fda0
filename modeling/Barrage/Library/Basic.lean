import Barrage.Library.Source
import Barrage.Pattern.Document

namespace Barrage

/-- A pattern that was loaded, numbered in order of loading. -/
structure Loaded where
  serial : Nat
  pattern : Pattern

/-- Patterns by name, loaded from a source when they are first asked for. It counts how often the
source was read and how many patterns were loaded. -/
structure Library where
  source : Source
  cache : List (String × Loaded)
  opens : Nat
  loads : Nat

namespace Library

def ofSource (source : Source) : Library := ⟨source, [], 0, 0⟩

def isLoaded (l : Library) (name : String) : Bool := (l.cache.lookup name).isSome

def clear (l : Library) : Library := { l with cache := [] }

def available (l : Library) : Except PatternError (List String) := l.source.names

structure Answer where
  result : Except PatternError Loaded
  notices : Array Notice

/-- The pattern of a name, from the cache if it is there. Only a pattern without fault is kept. -/
def load (l : Library) (name : String) : Answer × Library :=
  match l.cache.lookup name with
  | some loaded => (⟨.ok loaded, #[]⟩, l)
  | none =>
    let l := { l with opens := l.opens + 1 }
    match l.source.read name with
    | .error e => (⟨.error e, #[]⟩, l)
    | .ok document =>
      match Pattern.ofDocument name document with
      | (.error e, notices) => (⟨.error e, notices⟩, l)
      | (.ok pattern, notices) =>
        let loaded : Loaded := ⟨l.loads, pattern⟩
        (⟨.ok loaded, notices⟩,
          { l with cache := (name, loaded) :: l.cache, loads := l.loads + 1 })

end Library
end Barrage

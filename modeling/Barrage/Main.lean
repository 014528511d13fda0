import Barrage.Library.Folder
import Barrage.Runner

namespace Barrage.Runner

def readText? (path : String) : IO (Option String) := do
  try
    let text ← IO.FS.readFile path
    pure (some text)
  catch _ => pure none

def readDocument (dir name : String) : IO (Except PatternError Markup.Bytes) := do
  try
    let bytes ← IO.FS.readBinFile (Source.joinPath dir (Source.fileName name))
    pure (.ok bytes.toList)
  catch _ => pure (.error (.patternNotFound name))

def readNames (dir : String) : IO (Except PatternError (List String)) := do
  let folder : IO.FS.DirEntry := ⟨dir, ""⟩
  try
    let entries ← folder.root.readDir
    pure (.ok (Source.listedNames (entries.toList.map fun e => e.fileName)))
  catch e => pure (.error (.unreadable dir (toString e)))

def readSource (dir : String) : Command → IO Source
  | .usage => do
    let names ← readNames dir
    pure ⟨fun name => .error (.patternNotFound name), names⟩
  | .play name _ => do
    let document ← readDocument dir name
    pure ⟨fun _ => document, .ok []⟩

end Barrage.Runner

open Barrage Runner in
def main (args : List String) : IO UInt32 := do
  let settings := Settings.load (← readText? settingsFile)
  let command := Command.ofArgs args
  let source ← readSource settings.patternDir command
  let outcome := Runner.run settings source command
  IO.print outcome.output.render
  match outcome.error with
  | none => pure 0
  | some e =>
    IO.eprintln e.message
    pure 1

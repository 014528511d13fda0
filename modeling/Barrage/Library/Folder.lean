import Barrage.Library.Source

namespace Barrage

/-- A file or a folder of named entries. -/
inductive Entry where
  | file (content : Markup.Bytes)
  | folder (entries : List (String × Entry))

namespace Entry

/-- What stands between the slashes of a path. -/
def pathParts (path : String) : List String :=
  ((path.toList.splitOn '/').filter (!·.isEmpty)).map .ofList

/-- Follows the parts of a path from an entry, given with the folders around it, innermost first.
What is around the outermost folder is not known. -/
def follow? : List Entry → List String → Option Entry
  | entries, [] => entries.head?
  | .folder here :: around, part :: parts =>
    match part with
    | "." => follow? (.folder here :: around) parts
    | ".." =>
      match around with
      | [] => none
      | around => follow? around parts
    | name =>
      match here.lookup name with
      | some entry => follow? (entry :: .folder here :: around) parts
      | none => none
  | _, _ :: _ => none

/-- What a path leads to from a folder. An empty path leads nowhere, and one that starts at the
root of all folders leads outside of what is known. -/
def at? (e : Entry) (path : String) : Option Entry :=
  if path.isEmpty || path.toList.head? == some '/' then none
  else follow? [e] (pathParts path)

end Entry

namespace Source

def fileName (name : String) : String :=
  if (name.toList.reverse.take 4).reverse == ['.', 'x', 'm', 'l'] then name else name ++ ".xml"

/-- A path followed by another; one that starts at the root of all folders stands for itself. -/
def joinPath (path rest : String) : String :=
  if rest.toList.head? == some '/' || path.isEmpty then rest
  else if path.toList.getLast? == some '/' then path ++ rest
  else path ++ "/" ++ rest

/-- The document name that a folder's entry stands for: what precedes its ending, if that is
`.xml`. -/
def listedName? (entry : String) : Option String :=
  let reversed := entry.toList.reverse
  let stem := (reversed.dropWhile (· != '.')).drop 1
  if reversed.takeWhile (· != '.') == ['l', 'm', 'x'] && !stem.isEmpty then
    some (.ofList stem.reverse)
  else none

def listedNames (entries : List String) : List String :=
  sortNames (entries.filterMap listedName?)

/-- The files of a folder, which is found by its path from the working folder. -/
def ofFolder (working : Entry) (path : String) : Source where
  read name :=
    match working.at? (joinPath path (fileName name)) with
    | some (.file content) => .ok content
    | _ => .error (.patternNotFound name)
  names :=
    match working.at? path with
    | some (.folder entries) => .ok (listedNames (entries.map Prod.fst))
    | _ => .error (.unreadable path "no such folder")

end Source
end Barrage

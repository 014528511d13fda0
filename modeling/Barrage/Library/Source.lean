import Barrage.Markup.Bytes
import Barrage.Pattern.Error

namespace Barrage

/-- Where documents come from: each by its name, and the names of all of them. -/
structure Source where
  read : String → Except PatternError Markup.Bytes
  names : Except PatternError (List String)

namespace Source

/-- Names in order of their characters, which is also the order of their bytes in UTF-8. -/
def sortNames (names : List String) : List String :=
  names.mergeSort fun a b => !decide (b < a)

def ofDocuments (documents : List (String × Markup.Bytes)) : Source where
  read name :=
    match documents.lookup name with
    | some document => .ok document
    | none => .error (.patternNotFound name)
  names := .ok (sortNames (documents.map Prod.fst))

end Source
end Barrage

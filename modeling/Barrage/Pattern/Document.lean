import Barrage.Markup.Attribute
import Barrage.Markup.Entity
import Barrage.Markup.Event
import Barrage.Pattern.Basic

namespace Barrage.Pattern
open Markup Text

/-- A pattern being read: the elements that are open, innermost first, with their text so far. -/
structure Draft where
  pattern : Pattern
  opened : List (NodeId × String)
  rooted : Bool
  notices : Array Notice

/-- Steps of reading a document; what was read before a fault stays. -/
abbrev Reading := EStateM PatternError Draft

namespace Draft

def modifyPattern (f : Pattern → Pattern) : Reading Unit :=
  modify fun d => { d with pattern := f d.pattern }

def markup {α : Type} : Option α → Reading α
  | some a => pure a
  | none => throw (.document .malformed)

def setLabel (id : NodeId) (label : String) : Reading Unit :=
  modify fun d =>
    let (pattern, notice) := d.pattern.setLabel id label
    { d with pattern, notices := d.notices ++ notice.toArray }

def setMode (id : NodeId) (element : Element) (value : String) : Reading Unit :=
  match Mode.ofName? (trim value) with
  | some mode =>
    if element.accepts mode then modifyPattern (·.setMode id mode)
    else throw (.invalidMode element value)
  | none => throw (.invalidMode element value)

/-- Every value must be readable, also one that is not used. -/
def applyAttribute (id : NodeId) (element : Element) (a : Attribute) : Reading Unit := do
  let value ← markup (plainText? a.value)
  if localName a.key == ascii "label" then setLabel id value
  else if localName a.key == ascii "type" then setMode id element value

def applyAttributes (id : NodeId) (element : Element) (raw : Bytes) : Reading Unit := do
  let scan := attributes raw
  scan.attributes.forM (applyAttribute id element)
  if !scan.complete then throw (.document .malformed)

/-- The node of an element that begins here. The root's own attributes concern nobody. -/
def openElement (tag : Tag) : Reading NodeId := do
  let name := decodeLossy (localName tag.name)
  match Element.ofName? name with
  | none => throw (.unknownElement name)
  | some element =>
    let d ← get
    match element, d.opened with
    | .bulletml, [] =>
      if d.rooted then throw (.document .misplacedRoot)
      else
        set { d with rooted := true }
        pure root
    | .bulletml, _ :: _ => throw (.document .misplacedRoot)
    | element, [] => throw (.document (.outsideRoot element))
    | element, (parent, _) :: _ =>
      let (id, pattern) := d.pattern.addNode parent element
      set { d with pattern }
      applyAttributes id element tag.attributes
      pure id

/-- The text of an element that carries a value is an expression, unless it is blank. -/
def closeElement (id : NodeId) (text : String) : Reading Unit := do
  let d ← get
  let text := trim text
  if (d.pattern.element id).carriesValue && !text.isEmpty then
    match Expr.parse text with
    | .ok e => modifyPattern (·.setExpr id e)
    | .error cause => throw (.expression cause)

def appendText (text : String) : Reading Unit :=
  modify fun d =>
    match d.opened with
    | [] => d
    | (id, before) :: outer => { d with opened := (id, before ++ text) :: outer }

/-- Text outside every element is not looked at. -/
def read : Event → Reading Unit
  | .opening tag => do
    let d ← get
    if maxNestDepth ≤ d.opened.length then throw (.document .tooDeep)
    let id ← openElement tag
    modify fun d => { d with opened := (id, "") :: d.opened }
  | .empty tag => do
    let id ← openElement tag
    closeElement id ""
  | .text raw => do
    let d ← get
    if !d.opened.isEmpty then
      let text ← markup (plainText? raw)
      appendText text
  | .verbatim raw => appendText (decodeLossy raw)
  | .closing => do
    let d ← get
    match d.opened with
    | [] => pure ()
    | (id, text) :: outer =>
      set { d with opened := outer }
      closeElement id text

def readDocument (bs : Bytes) : Reading Unit := do
  let scan := Markup.scan bs
  scan.events.forM read
  if !scan.complete then throw (.document .malformed)
  let d ← get
  if !d.rooted then throw (.document .noRoot)
  match d.pattern.validate with
  | .ok _ => pure ()
  | .error e => throw e

end Draft

/-- The pattern that a document holds, and what there is to say about it. -/
def ofDocument (name : String) (bs : Bytes) : Except PatternError Pattern × Array Notice :=
  match Draft.readDocument bs ⟨ofName name, [], false, #[]⟩ with
  | .ok _ d => (.ok d.pattern, d.notices)
  | .error e d => (.error e, d.notices)

end Barrage.Pattern

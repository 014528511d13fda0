import Barrage.Expr.Basic
import Barrage.Pattern.Element

namespace Barrage

/-- The place of a node in its pattern, in document order. -/
structure NodeId where
  index : Nat
deriving DecidableEq, Repr, Inhabited

def NodeId.describe (id : NodeId) : String := "#" ++ toString id.index

structure Node where
  element : Element
  label : Option String
  mode : Option Mode
  expr : Option Expr
  parent : Option NodeId
  children : Array NodeId

def Node.bare (element : Element) (parent : Option NodeId) : Node where
  element
  label := none
  mode := none
  expr := none
  parent
  children := #[]

end Barrage

import Barrage.Expr.Parser
import Barrage.Handle
import Barrage.Pattern.Node

namespace Barrage

/-- How many elements may be open at once, and how deep one tree of tasks may be bound. -/
def maxNestDepth : Nat := 128

/-- Why a document is no tree of pattern elements. -/
inductive DocumentFault where
  | tooDeep
  | noRoot
  | misplacedRoot
  | outsideRoot (element : Element)
  | malformed
deriving DecidableEq, Repr

def DocumentFault.message : DocumentFault → String
  | .tooDeep => "elements nested deeper than " ++ toString maxNestDepth ++ " levels"
  | .noRoot => "document has no <bulletml> root"
  | .misplacedRoot => "<bulletml> must be the document root"
  | .outsideRoot element => "<" ++ element.name ++ "> outside of <bulletml>"
  | .malformed => "malformed markup"

/-- What can go wrong while a pattern is loaded, bound or run. -/
inductive PatternError where
  | missingBullet (fire : NodeId)
  | missingChild (node : NodeId) (parent child : Element)
  | danglingRef (kind : Element) (label : String)
  | recursionLimit (levels : Nat)
  | noTopAction (pattern : String)
  | unknownElement (name : String)
  | invalidMode (element : Element) (value : String)
  | expression (cause : Expr.SyntaxError)
  | document (fault : DocumentFault)
  | unreadable (path reason : String)
  | patternNotFound (name : String)
  | staleTask (task : TaskId)
deriving DecidableEq, Repr

namespace PatternError

def message : PatternError → String
  | .missingBullet fire => "fire node " ++ fire.describe ++ " has no <bullet> or <bulletRef> child"
  | .missingChild node parent child =>
    "<" ++ parent.name ++ "> node " ++ node.describe ++ " is missing its <" ++ child.name
      ++ "> child"
  | .danglingRef kind label =>
    "<" ++ kind.name ++ "> references undefined label '" ++ label ++ "'"
  | .recursionLimit levels => "pattern nesting exceeds " ++ toString levels ++ " levels"
  | .noTopAction pattern => "pattern '" ++ pattern ++ "' has no action labelled 'top'"
  | .unknownElement name => "unknown element <" ++ name ++ ">"
  | .invalidMode element value => "<" ++ element.name ++ "> has invalid type=\"" ++ value ++ "\""
  | .expression cause => "bad expression '" ++ cause.text ++ "': " ++ cause.fault.message
  | .document fault => "XML error: " ++ fault.message
  | .unreadable path reason => "failed to read '" ++ path ++ "': " ++ reason
  | .patternNotFound name => "pattern not found: " ++ name
  | .staleTask task => "task " ++ task.describe ++ " used after release"

/-- Whether the pattern itself is at fault, rather than its text, its file or its use. -/
def isStructural : PatternError → Bool
  | .document _ | .unreadable .. | .patternNotFound _ | .staleTask _ => false
  | _ => true

end PatternError

/-- What a run reports besides its results. -/
inductive Notice where
  | labelRedefined (pattern : String) (kind : Element) (label : String) (old new : NodeId)
  | activationFailed (pattern : String) (cause : PatternError)
  | repeatClamped (pattern : String) (node : NodeId) (times limit : UInt32)
  | bulletStopped (pattern : String) (bullet : BulletId) (cause : PatternError)
deriving DecidableEq, Repr

namespace Notice

def message : Notice → String
  | .labelRedefined pattern kind label old new =>
    pattern ++ ": <" ++ kind.name ++ "> label '" ++ label ++ "' redefined (" ++ old.describe
      ++ " replaced by " ++ new.describe ++ ")"
  | .activationFailed pattern cause => pattern ++ ": activation failed: " ++ cause.message
  | .repeatClamped pattern node times limit =>
    pattern ++ ": <repeat> " ++ node.describe ++ " clamps " ++ toString times.toNat
      ++ " iterations to " ++ toString limit.toNat
  | .bulletStopped pattern bullet cause =>
    pattern ++ ": bullet " ++ bullet.describe ++ " stopped running its pattern: "
      ++ cause.message

/-- A bullet that stops is an error, all else a warning. -/
def isError : Notice → Bool
  | .bulletStopped .. => true
  | _ => false

end Notice
end Barrage

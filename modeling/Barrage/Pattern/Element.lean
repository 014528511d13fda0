namespace Barrage

inductive Element where
  | bulletml
  | bullet
  | action
  | fire
  | bulletRef
  | actionRef
  | fireRef
  | direction
  | speed
  | horizontal
  | vertical
  | wait
  | vanish
  | repeat
  | times
  | term
  | changeDirection
  | changeSpeed
  | accel
  | param
deriving DecidableEq, Repr

namespace Element

def all : List Element :=
  [.bulletml, .bullet, .action, .fire, .bulletRef, .actionRef, .fireRef, .direction, .speed,
    .horizontal, .vertical, .wait, .vanish, .repeat, .times, .term, .changeDirection,
    .changeSpeed, .accel, .param]

def name : Element → String
  | .bulletml => "bulletml"
  | .bullet => "bullet"
  | .action => "action"
  | .fire => "fire"
  | .bulletRef => "bulletRef"
  | .actionRef => "actionRef"
  | .fireRef => "fireRef"
  | .direction => "direction"
  | .speed => "speed"
  | .horizontal => "horizontal"
  | .vertical => "vertical"
  | .wait => "wait"
  | .vanish => "vanish"
  | .repeat => "repeat"
  | .times => "times"
  | .term => "term"
  | .changeDirection => "changeDirection"
  | .changeSpeed => "changeSpeed"
  | .accel => "accel"
  | .param => "param"

def ofName? (s : String) : Option Element :=
  all.find? fun e => e.name == s

/-- Elements whose text is a value expression. -/
def carriesValue : Element → Bool
  | .direction | .speed | .horizontal | .vertical | .wait | .times | .term | .param => true
  | _ => false

/-- Elements that a label makes available to references. -/
def isDefinition : Element → Bool
  | .bullet | .action | .fire => true
  | _ => false

/-- The kind of definition that a reference names. -/
def refTarget? : Element → Option Element
  | .bulletRef => some .bullet
  | .actionRef => some .action
  | .fireRef => some .fire
  | _ => none

end Element

/-- How a value combines with the state it meets. -/
inductive Mode where
  | absolute
  | relative
  | aim
  | sequence
deriving DecidableEq, Repr

namespace Mode

def all : List Mode := [.absolute, .relative, .aim, .sequence]

def name : Mode → String
  | .absolute => "absolute"
  | .relative => "relative"
  | .aim => "aim"
  | .sequence => "sequence"

def ofName? (s : String) : Option Mode :=
  all.find? fun m => m.name == s

end Mode

/-- A direction takes every mode, the other values any but `aim`, and no other element takes one. -/
def Element.accepts : Element → Mode → Bool
  | .direction, _ => true
  | .speed, m | .horizontal, m | .vertical, m => m != .aim
  | _, _ => false

end Barrage

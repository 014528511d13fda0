import Barrage.Pattern.Error

namespace Barrage

structure Definition where
  kind : Element
  label : String
  node : NodeId
deriving DecidableEq, Repr

/-- A tree of elements in document order under a `bulletml` root, with what its labels define.
The latest definition of a label stands first. -/
structure Pattern where
  name : String
  nodes : Array Node
  definitions : List Definition

namespace Pattern

def ofName (name : String) : Pattern :=
  ⟨name, #[.bare .bulletml none], []⟩

def root : NodeId := ⟨0⟩

def size (p : Pattern) : Nat := p.nodes.size

def isEmpty (p : Pattern) : Bool := p.size ≤ 1

def node? (p : Pattern) (id : NodeId) : Option Node := p.nodes[id.index]?

/-- The node with the given id; an id of another pattern stands for an empty root. -/
def node (p : Pattern) (id : NodeId) : Node := (p.node? id).getD (.bare .bulletml none)

def element (p : Pattern) (id : NodeId) : Element := (p.node id).element

def mode (p : Pattern) (id : NodeId) : Option Mode := (p.node id).mode

def children (p : Pattern) (id : NodeId) : List NodeId := (p.node id).children.toList

def childrenNamed (p : Pattern) (id : NodeId) (e : Element) : List NodeId :=
  (p.children id).filter fun c => p.element c == e

def child? (p : Pattern) (id : NodeId) (e : Element) : Option NodeId :=
  (p.children id).find? fun c => p.element c == e

def modifyNode (p : Pattern) (id : NodeId) (f : Node → Node) : Pattern :=
  { p with nodes := p.nodes.modify id.index f }

/-- A new last child of `parent`, and its id. -/
def addNode (p : Pattern) (parent : NodeId) (e : Element) : NodeId × Pattern :=
  let id : NodeId := ⟨p.size⟩
  let p := { p with nodes := p.nodes.push (.bare e (some parent)) }
  (id, p.modifyNode parent fun n => { n with children := n.children.push id })

def setMode (p : Pattern) (id : NodeId) (mode : Mode) : Pattern :=
  p.modifyNode id fun n => { n with mode := some mode }

def setExpr (p : Pattern) (id : NodeId) (e : Expr) : Pattern :=
  p.modifyNode id fun n => { n with expr := some e }

def lookup? (p : Pattern) (kind : Element) (label : String) : Option NodeId :=
  (p.definitions.find? fun d => d.kind == kind && d.label == label).map Definition.node

/-- Labels a definition or names the target of a reference. Only a label that already had a
definition of the same kind is worth a notice. -/
def setLabel (p : Pattern) (id : NodeId) (label : String) : Pattern × Option Notice :=
  let kind := p.element id
  let labelled := p.modifyNode id fun n => { n with label := some label }
  if kind.isDefinition then
    ({ labelled with definitions := ⟨kind, label, id⟩ :: p.definitions },
      (p.lookup? kind label).map fun old => .labelRedefined p.name kind label old id)
  else (labelled, none)

/-- The definition that a reference names; any other node stands for itself. -/
def resolve (p : Pattern) (id : NodeId) : Except PatternError NodeId :=
  match (p.element id).refTarget? with
  | none => .ok id
  | some target =>
    let label := (p.node id).label.getD ""
    match p.lookup? target label with
    | some node => .ok node
    | none => .error (.danglingRef (p.element id) label)

def isTop (p : Pattern) (id : NodeId) : Bool :=
  match (p.node id).label with
  | some label => label.toList.take 3 == ['t', 'o', 'p']
  | none => false

/-- The actions that start with the pattern: those in the root whose label begins with `top`. -/
def topActions (p : Pattern) : List NodeId :=
  (p.childrenNamed root .action).filter p.isTop

def ids (p : Pattern) : List NodeId := (List.range p.size).map NodeId.mk

/-- The first child of one kind, which the node cannot do without. -/
def required (p : Pattern) (id : NodeId) (e : Element) : Except PatternError NodeId :=
  match p.child? id e with
  | some c => .ok c
  | none => .error (.missingChild id (p.element id) e)

/-- What a node needs in order to be bound. -/
def checkNode (p : Pattern) (id : NodeId) : Except PatternError Unit :=
  match p.element id with
  | .bulletRef | .actionRef | .fireRef => do
    let _ ← p.resolve id
  | .fire =>
    if (p.child? id .bullet).isNone && (p.child? id .bulletRef).isNone then
      .error (.missingBullet id)
    else .ok ()
  | .changeDirection => do
    let _ ← p.required id .direction
    let _ ← p.required id .term
  | .changeSpeed => do
    let _ ← p.required id .speed
    let _ ← p.required id .term
  | .accel => do
    let _ ← p.required id .term
  | .repeat => do
    let _ ← p.required id .times
    if (p.child? id .action).isNone then
      let _ ← p.required id .actionRef
  | _ => .ok ()

/-- The first fault of the pattern in document order. -/
def validate (p : Pattern) : Except PatternError Unit :=
  p.ids.forM p.checkNode

end Pattern
end Barrage

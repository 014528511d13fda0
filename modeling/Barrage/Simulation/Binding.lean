import Barrage.Simulation.Context
import Barrage.Task.Arena

namespace Barrage

structure BindState where
  tasks : Arena
  random : Random

/-- Steps of binding; what changed before a fault stays. -/
abbrev Binding := EStateM PatternError BindState

/-- What binding reads: a pattern, the rank, and the bullet that the tasks will drive. -/
structure Binder where
  pattern : Pattern
  rank : Float32
  bullet : Bullet

/-- Binds a node under an owner with the parameters in force there. A node that is no task of its
own gives none. -/
abbrev NodeBinder := NodeId → Option TaskId → List Float32 → Binding (Option TaskId)

namespace Binding

def require {α : Type} : Except PatternError α → Binding α
  | .ok a => pure a
  | .error e => throw e

def insert (node : NodeId) (owner : Option TaskId) (params : List Float32) (kind : TaskKind) :
    Binding TaskId :=
  modifyGet fun s =>
    let (id, tasks) := s.tasks.insert (.ofNode node owner params kind)
    (id, { s with tasks })

def adopt (parent child : TaskId) : Binding Unit :=
  modify fun s => { s with tasks := s.tasks.modify parent (·.adopt child) }

/-- Releases some tasks, with all below them, if a step fails. -/
def orRelease {α : Type} (ids : List TaskId) (step : Binding α) : Binding α := fun s =>
  match step s with
  | .ok a s => .ok a s
  | .error e s => .error e { s with tasks := s.tasks.releaseAll ids }

end Binding

namespace Binder
open Binding

/-- The parameters that a reference passes on, evaluated with those in force where it stands. -/
def passedParams (b : Binder) (ref : NodeId) (params : List Float32) : Binding (List Float32) :=
  modifyGet fun s =>
    let scope : Scope := ⟨params, b.rank, b.bullet.degrees, b.bullet.speed⟩
    let (values, random) :=
      b.pattern.evalNodes scope (b.pattern.childrenNamed ref .param) s.random
    (values, { s with random })

def bindChildren (b : Binder) (child : NodeBinder) (parent : TaskId) (node : NodeId)
    (params : List Float32) : Binding Unit :=
  orRelease [parent] <| (b.pattern.children node).forM fun c => do
    match ← child c (some parent) params with
    | some task => adopt parent task
    | none => pure ()

def bindAction (b : Binder) (child : NodeBinder) (node : NodeId) (owner : Option TaskId)
    (params : List Float32) : Binding TaskId := do
  let id ← insert node owner params .action
  b.bindChildren child id node params
  pure id

/-- A fresh body for a `repeat`: its first action, or else its first reference to one. -/
def bindBody (b : Binder) (child : NodeBinder) (node : NodeId) (owner : TaskId)
    (params : List Float32) : Binding TaskId := do
  let missing : PatternError := .missingChild node .repeat .action
  match b.pattern.child? node .action <|> b.pattern.child? node .actionRef with
  | none => throw missing
  | some body =>
    match ← child body (some owner) params with
    | some task => pure task
    | none => throw missing

def bindRepeat (b : Binder) (room : Nat) (child : NodeBinder) (node : NodeId)
    (owner : Option TaskId) (params : List Float32) : Binding TaskId := do
  let _ ← require (b.pattern.required node .times)
  let id ← insert node owner params (.repeat ⟨none, 0, room⟩)
  orRelease [id] do
    let body ← b.bindBody child node id params
    adopt id body
  pure id

/-- A value of a fire, taken from the fire first and from its bullet second. -/
def locate (b : Binder) (fire bullet : NodeId) (e : Element) : Option ValueSource :=
  match b.pattern.child? fire e with
  | some node => some ⟨node, false⟩
  | none => (b.pattern.child? bullet e).map (⟨·, true⟩)

def fireBullet (b : Binder) (fire : NodeId) (params : List Float32) :
    Binding (NodeId × List Float32) := do
  match b.pattern.child? fire .bullet with
  | some bullet => pure (bullet, params)
  | none =>
    match b.pattern.child? fire .bulletRef with
    | none => throw (.missingBullet fire)
    | some ref =>
      let bullet ← require (b.pattern.resolve ref)
      let passed ← b.passedParams ref params
      pure (bullet, passed)

/-- A fire holds one child, which keeps the parameters of its bullet until it is fired. -/
def bindFire (b : Binder) (fire : NodeId) (owner : Option TaskId) (params : List Float32) :
    Binding TaskId := do
  let (bullet, bulletParams) ← b.fireBullet fire params
  let state : FireState :=
    ⟨bullet, b.locate fire bullet .direction, b.locate fire bullet .speed⟩
  let id ← insert fire owner params (.fire state)
  let held ← insert bullet (some id) bulletParams .bullet
  adopt id held
  pure id

def bindFireRef (b : Binder) (room : Nat) (ref : NodeId) (owner : Option TaskId)
    (params : List Float32) : Binding TaskId := do
  let fire ← require (b.pattern.resolve ref)
  let passed ← b.passedParams ref params
  if room == 0 then throw (.recursionLimit maxNestDepth)
  b.bindFire fire owner passed

def bindChange (b : Binder) (kind : ChangeState → TaskKind) (value : Element) (node : NodeId)
    (owner : Option TaskId) (params : List Float32) : Binding TaskId := do
  let value ← require (b.pattern.required node value)
  let term ← require (b.pattern.required node .term)
  insert node owner params (kind ⟨value, term, none⟩)

def bindAccel (b : Binder) (node : NodeId) (owner : Option TaskId) (params : List Float32) :
    Binding TaskId := do
  let term ← require (b.pattern.required node .term)
  let state : AccelState :=
    ⟨b.pattern.child? node .horizontal, b.pattern.child? node .vertical, term, none⟩
  insert node owner params (.accel state)

/-- Binds a node below which `room` levels are left. Children stand one level deeper; those of a
referenced action stand two levels deeper, since the reference counts for one. -/
def bindOver (b : Binder) (room : Nat) (child beyond : NodeBinder) : NodeBinder :=
  fun node owner params =>
    match b.pattern.element node with
    | .action => some <$> b.bindAction child node owner params
    | .actionRef => do
      let target ← require (b.pattern.resolve node)
      let passed ← b.passedParams node params
      some <$> b.bindAction beyond target owner passed
    | .fire => some <$> b.bindFire node owner params
    | .fireRef => some <$> b.bindFireRef room node owner params
    | .repeat => some <$> b.bindRepeat room child node owner params
    | .wait => some <$> insert node owner params (.wait none)
    | .vanish => some <$> insert node owner params .vanish
    | .changeDirection => some <$> b.bindChange .changeDirection .direction node owner params
    | .changeSpeed => some <$> b.bindChange .changeSpeed .speed node owner params
    | .accel => some <$> b.bindAccel node owner params
    | _ => pure none

/-- Binds nothing: there is no level left. -/
def refuse : NodeBinder := fun _ _ _ => throw (.recursionLimit maxNestDepth)

/-- Binds a node and everything under it within `room` levels. -/
def bindNode (b : Binder) : Nat → NodeBinder
  | 0 => refuse
  | 1 => b.bindOver 0 refuse refuse
  | room + 2 => b.bindOver (room + 1) (b.bindNode (room + 1)) (b.bindNode room)

/-- Binds several nodes as the roots of a bullet: all of them or none. -/
def bindRoots (b : Binder) (owner : Option TaskId) (params : List Float32) :
    List NodeId → List TaskId → Binding (List TaskId)
  | [], roots => pure roots
  | node :: nodes, roots => do
    match ← orRelease roots (b.bindNode (maxNestDepth + 1) node owner params) with
    | some root => b.bindRoots owner params nodes (roots ++ [root])
    | none => b.bindRoots owner params nodes roots

end Binder
end Barrage

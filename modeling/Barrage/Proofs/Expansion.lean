import Barrage.Proofs.Forest
import Barrage.Simulation.Binding

namespace Barrage

/-- A tree of tasks that have not run, without their places in an arena. -/
inductive TaskTree where
  | node (node : NodeId) (params : List Float32) (kind : TaskKind) (children : List TaskTree)

/-- Steps that draw random numbers and can fail. -/
abbrev Expansion := EStateM PatternError Random

abbrev NodeExpander := NodeId → List Float32 → Expansion (Option TaskTree)

namespace Expansion

def require {α : Type} : Except PatternError α → Expansion α
  | .ok a => pure a
  | .error e => throw e

end Expansion

namespace Binder
open Expansion

def passed (b : Binder) (ref : NodeId) (params : List Float32) : Expansion (List Float32) :=
  modifyGet fun r =>
    b.pattern.evalNodes ⟨params, b.rank, b.bullet.degrees, b.bullet.speed⟩
      (b.pattern.childrenNamed ref .param) r

def expandChildren (child : NodeExpander) (params : List Float32) :
    List NodeId → Expansion (List TaskTree)
  | [] => pure []
  | c :: cs => do
    let tree ← child c params
    let trees ← expandChildren child params cs
    pure (tree.toList ++ trees)

def expandAction (b : Binder) (child : NodeExpander) (node : NodeId) (params : List Float32) :
    Expansion TaskTree := do
  let trees ← expandChildren child params (b.pattern.children node)
  pure (.node node params .action trees)

def expandBody (b : Binder) (child : NodeExpander) (node : NodeId) (params : List Float32) :
    Expansion TaskTree := do
  let missing : PatternError := .missingChild node .repeat .action
  match b.pattern.child? node .action <|> b.pattern.child? node .actionRef with
  | none => throw missing
  | some body =>
    match ← child body params with
    | some tree => pure tree
    | none => throw missing

def expandRepeat (b : Binder) (room : Nat) (child : NodeExpander) (node : NodeId)
    (params : List Float32) : Expansion TaskTree := do
  let _ ← require (b.pattern.required node .times)
  let body ← b.expandBody child node params
  pure (.node node params (.repeat ⟨none, 0, room⟩) [body])

def expandBullet (b : Binder) (fire : NodeId) (params : List Float32) :
    Expansion (NodeId × List Float32) :=
  match b.pattern.child? fire .bullet with
  | some bullet => pure (bullet, params)
  | none =>
    match b.pattern.child? fire .bulletRef with
    | none => throw (.missingBullet fire)
    | some ref => do
      let bullet ← require (b.pattern.resolve ref)
      let passed ← b.passed ref params
      pure (bullet, passed)

def expandFire (b : Binder) (fire : NodeId) (params : List Float32) : Expansion TaskTree := do
  let (bullet, bulletParams) ← b.expandBullet fire params
  pure (.node fire params
    (.fire ⟨bullet, b.locate fire bullet .direction, b.locate fire bullet .speed⟩)
    [.node bullet bulletParams .bullet []])

def expandFireRef (b : Binder) (room : Nat) (ref : NodeId) (params : List Float32) :
    Expansion TaskTree := do
  let fire ← require (b.pattern.resolve ref)
  let passed ← b.passed ref params
  if room == 0 then throw (.recursionLimit maxNestDepth)
  b.expandFire fire passed

def expandChange (b : Binder) (kind : ChangeState → TaskKind) (value : Element) (node : NodeId)
    (params : List Float32) : Expansion TaskTree := do
  let value ← require (b.pattern.required node value)
  let term ← require (b.pattern.required node .term)
  pure (.node node params (kind ⟨value, term, none⟩) [])

def expandAccel (b : Binder) (node : NodeId) (params : List Float32) : Expansion TaskTree := do
  let term ← require (b.pattern.required node .term)
  pure (.node node params
    (.accel ⟨b.pattern.child? node .horizontal, b.pattern.child? node .vertical, term, none⟩) [])

def expandOver (b : Binder) (room : Nat) (child beyond : NodeExpander) : NodeExpander :=
  fun node params =>
    match b.pattern.element node with
    | .action => some <$> b.expandAction child node params
    | .actionRef => do
      let target ← require (b.pattern.resolve node)
      let passed ← b.passed node params
      some <$> b.expandAction beyond target passed
    | .fire => some <$> b.expandFire node params
    | .fireRef => some <$> b.expandFireRef room node params
    | .repeat => some <$> b.expandRepeat room child node params
    | .wait => pure (some (.node node params (.wait none) []))
    | .vanish => pure (some (.node node params .vanish []))
    | .changeDirection => some <$> b.expandChange .changeDirection .direction node params
    | .changeSpeed => some <$> b.expandChange .changeSpeed .speed node params
    | .accel => some <$> b.expandAccel node params
    | _ => pure none

def expandRefused : NodeExpander := fun _ _ => throw (.recursionLimit maxNestDepth)

/-- The tree that a node stands for: references are replaced by what they name, with the parameters
they pass. -/
def expandNode (b : Binder) : Nat → NodeExpander
  | 0 => expandRefused
  | 1 => b.expandOver 0 expandRefused expandRefused
  | room + 2 => b.expandOver (room + 1) (b.expandNode (room + 1)) (b.expandNode room)

theorem expandNode_succ (b : Binder) (room : Nat) :
    b.expandNode (room + 1) =
      b.expandOver room (b.expandNode room) (b.expandNode (room - 1)) := by
  cases room with
  | zero => rfl
  | succ room => rfl

end Binder
end Barrage

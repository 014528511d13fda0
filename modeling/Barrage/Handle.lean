namespace Barrage

inductive HandleKind where
  | bullet
  | task
deriving DecidableEq, Repr

/-- A slot of a store together with the generation in which it was given out. -/
structure Handle (kind : HandleKind) where
  index : Nat
  generation : UInt32
deriving DecidableEq, Repr

abbrev BulletId := Handle .bullet

abbrev TaskId := Handle .task

/-- The written form of a handle, such as `TaskId(3@gen1)`. -/
def Handle.describe {kind : HandleKind} (h : Handle kind) : String :=
  let name := match kind with
    | .bullet => "BulletId"
    | .task => "TaskId"
  name ++ "(" ++ toString h.index ++ "@gen" ++ toString h.generation.toNat ++ ")"

end Barrage

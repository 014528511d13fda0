import Barrage.Store
import Barrage.Task.Basic

namespace Barrage

/-- All tasks of a simulation, and how many of them are live. -/
structure Arena where
  store : Store .task Task
  live : Nat

namespace Arena

def empty : Arena := ⟨.empty, 0⟩

def isEmpty (a : Arena) : Bool := a.live == 0

def get? (a : Arena) (id : TaskId) : Option Task := a.store.get? id

def contains (a : Arena) (id : TaskId) : Bool := (a.get? id).isSome

def child? (a : Arena) (id : TaskId) (i : Nat) : Option TaskId :=
  (a.get? id).bind fun task => task.children[i]?

/-- A task that is gone counts as finished. -/
def isFinished (a : Arena) (id : TaskId) : Bool :=
  match a.get? id with
  | some task => task.isFinished
  | none => true

def modify (a : Arena) (id : TaskId) (f : Task → Task) : Arena :=
  { a with store := a.store.modify id f }

def insert (a : Arena) (task : Task) : TaskId × Arena :=
  let (id, store) := a.store.insert fun _ => task
  (id, ⟨store, a.live + 1⟩)

/-- Frees the slot of a live task. -/
def remove (a : Arena) (id : TaskId) : Arena :=
  if a.contains id then ⟨a.store.release id, a.live - 1⟩ else a

/-- The first live task of a list, and what follows it. -/
def firstLive? (a : Arena) : List TaskId → Option (TaskId × Task × List TaskId)
  | [] => none
  | id :: ids =>
    match a.get? id with
    | some task => some (id, task, ids)
    | none => a.firstLive? ids

/-- Frees everything that is reachable from a list of tasks, last child first, and counts it.
Every round empties a slot, so there are no more rounds than slots. -/
def releaseFrom : Nat → List TaskId → Arena → Nat × Arena
  | 0, _, a => (0, a)
  | rounds + 1, stack, a =>
    match a.firstLive? stack with
    | none => (0, a)
    | some (id, task, stack) =>
      let (count, a) := releaseFrom rounds (task.children.reverse ++ stack) (a.remove id)
      (count + 1, a)

/-- Frees a task and everything below it, and counts what was freed. -/
def release (a : Arena) (id : TaskId) : Nat × Arena :=
  releaseFrom a.store.slots.size [id] a

def releaseAll (a : Arena) (ids : List TaskId) : Arena :=
  ids.foldl (fun a id => (a.release id).2) a

end Arena
end Barrage

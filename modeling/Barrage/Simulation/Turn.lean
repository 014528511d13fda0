import Barrage.Bullet.Pool
import Barrage.Simulation.Binding
import Barrage.Simulation.Resolution

namespace Barrage

/-- No `repeat` runs its body more often than this. -/
def maxRepeat : UInt32 := 10000

/-- The longest chain of tasks, each the child of the one before. -/
def maxTaskChain : Nat := maxNestDepth + 2

/-- What the tasks of one bullet can touch while they run. -/
structure Turn where
  bullet : Bullet
  tasks : Arena
  pool : Pool
  context : Context
  notices : Array Notice

/-- Steps of running tasks; what changed before a fault stays. -/
abbrev Run := EStateM PatternError Turn

namespace Turn

def task (id : TaskId) : Run Task := do
  match (← get).tasks.get? id with
  | some task => pure task
  | none => throw (.staleTask id)

def modifyTask (id : TaskId) (f : Task → Task) : Run Unit :=
  modify fun t => { t with tasks := t.tasks.modify id f }

def setKind (id : TaskId) (kind : TaskKind) : Run Unit :=
  modifyTask id fun task => { task with kind }

def release (id : TaskId) : Run Unit :=
  modify fun t => { t with tasks := (t.tasks.release id).2 }

def modifyBullet (f : Bullet → Bullet) : Run Unit :=
  modify fun t => { t with bullet := f t.bullet }

def modifyContext (f : Context → Context) : Run Unit :=
  modify fun t => { t with context := f t.context }

def notify (notice : Notice) : Run Unit :=
  modify fun t => { t with notices := t.notices.push notice }

def isVanished : Run Bool := return (← get).bullet.vanished

def eval (p : Pattern) (node : NodeId) (params : List Float32) : Run Float32 :=
  modifyGet fun t =>
    let (v, random) := p.evalNode node (t.context.scope params t.bullet) t.context.random
    (v, { t with context := { t.context with random } })

/-- Binds tasks for a bullet, which need not be the running one. -/
def bindFor {α : Type} (p : Pattern) (b : Bullet) (step : Binder → Binding α) : Run α := fun t =>
  match step ⟨p, t.context.rank, b⟩ ⟨t.tasks, t.context.random⟩ with
  | .ok a ⟨tasks, random⟩ => .ok a { t with tasks, context := { t.context with random } }
  | .error e ⟨tasks, random⟩ => .error e { t with tasks, context := { t.context with random } }

end Turn
end Barrage

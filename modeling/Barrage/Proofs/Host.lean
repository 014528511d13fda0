import Barrage.Proofs.Update

namespace Barrage

/-- What a host can ask of a simulation. An edit changes a live bullet in place. -/
inductive HostCall where
  | create (pos : Point) (direction speed : Float32)
  | spawn (p : Pattern) (pos : Point)
  | update (dt : Float32)
  | vanish (id : BulletId)
  | clear
  | setCapacity (capacity : Nat)
  | setRank (rank : Float32)
  | setTarget (target : Point)
  | edit (id : BulletId) (f : Bullet → Bullet)
  | collect

namespace HostCall

def perform : HostCall → Simulation → Simulation
  | .create pos direction speed, s => (s.create pos direction speed).2
  | .spawn p pos, s => (s.spawn p pos).2
  | .update dt, s => s.update dt
  | .vanish id, s => (s.vanish id).2
  | .clear, s => s.clear
  | .setCapacity capacity, s => s.setCapacity capacity
  | .setRank rank, s => s.setRank rank
  | .setTarget target, s => s.setTarget target
  | .edit id f, s => s.modifyBullet id f
  | .collect, s => s.collectNotices.2

/-- The call names only bullets that the host was given, and leaves the handle and the tasks of a
bullet alone. -/
def Lawful (issued : List BulletId) : HostCall → Prop
  | .vanish id => id ∈ issued
  | .edit _ f => ∀ b, (f b).id = b.id ∧ (f b).tasks = b.tasks
  | _ => True

/-- The patterns that the call gives to bullets satisfy `Q`. The pattern of a bullet is out of the
host's reach: an edit leaves it as it is. -/
def Supplies (Q : Pattern → Prop) : HostCall → Prop
  | .spawn p _ => Q p
  | .edit _ f => ∀ b, (f b).pattern = b.pattern
  | _ => True

end HostCall

namespace Simulation

/-- The simulation is reached from an empty one by lawful calls of the given sort, with these
handles seen on the way, and no slot was freed so often that its generations began anew. -/
inductive Reachable (ok : HostCall → Prop) : List BulletId → Simulation → Prop where
  | init (capacity : Nat) (seed : UInt64) (rank : Float32) (cull : Option Bounds)
      (margin : Float32) : Reachable ok [] (.init capacity seed rank cull margin)
  | step {issued : List BulletId} {s : Simulation} (h : Reachable ok issued s) (c : HostCall)
      (hc : ok c) (hl : c.Lawful issued) (hw : (c.perform s).NoWrap) :
      Reachable ok (issued ++ (c.perform s).pool.ids) (c.perform s)

variable {g : Prop} {Q : Pattern → Prop} {ok : HostCall → Prop} {issued : List BulletId}
  {s : Simulation} {c : HostCall}

theorem noWrap_init (capacity : Nat) (seed : UInt64) (rank : Float32) (cull : Option Bounds)
    (margin : Float32) : (init capacity seed rank cull margin).NoWrap := by
  constructor <;> intro i <;> simp [init, Pool.ofCapacity, Arena.empty, Store.empty, Store.releases]

/-- Every lawful call keeps the simulation in order. -/
theorem Orderly.perform (h : s.Orderly g Q) (hw : s.NoWrap) (hi : ∀ id ∈ issued, s.pool.Issued id)
    (hl : c.Lawful issued) (hs : g → c.Supplies Q) (hQ : g → ∀ p, Q p → p.Closed)
    (hw' : (c.perform s).NoWrap) : (c.perform s).Orderly g Q ∧ s.Advances (c.perform s) := by
  cases c with
  | create pos direction speed => exact h.create pos direction speed
  | spawn p pos => exact h.spawn (fun hg => ⟨hs hg, hQ hg p (hs hg)⟩) pos hw'.2
  | update dt => exact h.update hQ hw'.2
  | vanish id => exact h.vanish_issued (hi id hl) hw.1
  | clear => exact h.clear
  | setCapacity capacity => exact h.setCapacity capacity
  | setRank rank => exact ⟨⟨h.pool, h.seated, h.arena, h.tended, h.stops⟩, .of_pool rfl⟩
  | setTarget target => exact ⟨⟨h.pool, h.seated, h.arena, h.tended, h.stops⟩, .of_pool rfl⟩
  | edit id f => exact h.modifyBullet (fun b => (hl b).1) (fun b => (hl b).2) hs hw.2
  | collect =>
    refine ⟨⟨h.pool, h.seated, h.arena, h.tended, ?_⟩, .of_pool rfl⟩
    intro _ _ _ _ hm
    simp [HostCall.perform, collectNotices] at hm

/-- What holds of every run: the simulation is in order, and the handles that the host has seen are
of live bullets or can never be again. -/
theorem Reachable.orderly (h : Reachable ok issued s) (hok : ∀ c, ok c → g → c.Supplies Q)
    (hQ : g → ∀ p, Q p → p.Closed) :
    s.Orderly g Q ∧ s.NoWrap ∧ ∀ id ∈ issued, s.pool.Issued id := by
  induction h with
  | init => exact ⟨orderly_init .., noWrap_init .., fun _ hm => absurd hm List.not_mem_nil⟩
  | step _ c hc hl hw ih =>
    obtain ⟨ho, hold, hi⟩ := ih
    obtain ⟨ho', ha⟩ := ho.perform hold hi hl (hok c hc) hQ hw
    refine ⟨ho', hw, ?_⟩
    intro id hm
    rcases List.mem_append.1 hm with hm | hm
    · exact ha.issued (hi id hm)
    · exact .inl hm

theorem Reachable.inOrder (h : Reachable (fun _ => True) issued s) :
    s.Orderly False (fun _ => True) ∧ s.NoWrap ∧ ∀ id ∈ issued, s.pool.Issued id :=
  h.orderly (fun _ _ hf => hf.elim) nofun

end Simulation

/-- A pattern that fires one bullet, which vanishes as soon as it runs. -/
def Pattern.spark : Pattern :=
  let p := ((ofName "spark").addNode root .action).2
  let p := (p.setLabel ⟨1⟩ "top").1
  let p := (p.addNode ⟨1⟩ .fire).2
  let p := (p.addNode ⟨2⟩ .bullet).2
  let p := (p.addNode ⟨3⟩ .action).2
  (p.addNode ⟨4⟩ .vanish).2

/-- A simulation in which that pattern has just been started. -/
def Simulation.lit : Simulation := (HostCall.spawn .spark .zero).perform (.init 4 0 0 none 0)

theorem Simulation.reachable_lit {ok : HostCall → Prop} (h : ok (.spawn .spark .zero)) :
    Reachable ok ([] ++ lit.pool.ids) lit :=
  .step (.init 4 0 0 none 0) (.spawn .spark .zero) h trivial (by decide +kernel)

end Barrage

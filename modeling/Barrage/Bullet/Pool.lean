import Barrage.Bullet.Basic
import Barrage.Store

namespace Barrage

/-- The bullets of a simulation, the live ones in order of creation, never more than `capacity`. -/
structure Pool where
  store : Store .bullet Bullet
  order : Array BulletId
  capacity : Nat

namespace Pool

def ofCapacity (capacity : Nat) : Pool := ⟨.empty, #[], capacity⟩

def size (p : Pool) : Nat := p.order.size

def isEmpty (p : Pool) : Bool := p.order.isEmpty

def isFull (p : Pool) : Bool := p.capacity ≤ p.size

def get? (p : Pool) (id : BulletId) : Option Bullet := p.store.get? id

def idAt? (p : Pool) (i : Nat) : Option BulletId := p.order[i]?

def bullets (p : Pool) : List Bullet := p.order.toList.filterMap p.get?

/-- A new bullet at rest, unless the pool is full. -/
def create (p : Pool) : Option BulletId × Pool :=
  if p.isFull then (none, p)
  else
    let (id, store) := p.store.insert Bullet.atRest
    (some id, { p with store, order := p.order.push id })

def modify (p : Pool) (id : BulletId) (f : Bullet → Bullet) : Pool :=
  { p with store := p.store.modify id f }

/-- Takes a bullet out of its slot, which stays reserved for it. -/
def take (p : Pool) (id : BulletId) : Option Bullet × Pool :=
  (p.get? id, { p with store := p.store.vacate id })

def place (p : Pool) (b : Bullet) : Pool :=
  { p with store := p.store.put b.id b }

/-- Frees the slot of a handle that is in its generation, and answers the bullet that was there. -/
def remove (p : Pool) (id : BulletId) : Option Bullet × Pool :=
  if p.store.isCurrent id then
    (p.get? id, { p with store := p.store.release id, order := p.order.filter (· != id) })
  else (none, p)

def setCapacity (p : Pool) (capacity : Nat) : Pool := { p with capacity }

end Pool
end Barrage

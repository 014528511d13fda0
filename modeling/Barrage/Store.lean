import Barrage.Handle

namespace Barrage

/-- A place for a value, with how often it was freed. -/
structure Slot (α : Type) where
  releases : Nat
  value : Option α

/-- The generation of a slot: how often it was freed, counted in 32 bits. -/
def Slot.generation {α : Type} (slot : Slot α) : UInt32 := .ofNat slot.releases

/-- Slots that are given out again after they were freed, each time under a new generation. The
slot freed last is given out first. -/
structure Store (kind : HandleKind) (α : Type) where
  slots : Array (Slot α)
  free : List Nat

namespace Store

variable {kind : HandleKind} {α : Type}

def empty : Store kind α := ⟨#[], []⟩

/-- The slot of a handle, while it is in the handle's generation. -/
def slot? (s : Store kind α) (h : Handle kind) : Option (Slot α) :=
  s.slots[h.index]?.filter fun slot => slot.generation == h.generation

def isCurrent (s : Store kind α) (h : Handle kind) : Bool := (s.slot? h).isSome

def get? (s : Store kind α) (h : Handle kind) : Option α := (s.slot? h).bind Slot.value

def contains (s : Store kind α) (h : Handle kind) : Bool := (s.get? h).isSome

def modifySlot (s : Store kind α) (h : Handle kind) (f : Slot α → Slot α) : Store kind α :=
  if s.isCurrent h then { s with slots := s.slots.modify h.index f } else s

def modify (s : Store kind α) (h : Handle kind) (f : α → α) : Store kind α :=
  s.modifySlot h fun slot => { slot with value := slot.value.map f }

/-- Puts a value behind a handle whose slot is in its generation. -/
def put (s : Store kind α) (h : Handle kind) (a : α) : Store kind α :=
  s.modifySlot h fun slot => { slot with value := some a }

/-- Empties the slot of a handle, which stays reserved for it. -/
def vacate (s : Store kind α) (h : Handle kind) : Store kind α :=
  s.modifySlot h fun slot => { slot with value := none }

/-- Empties the slot of a handle and lets it be given out anew; the handle is stale from then on. -/
def release (s : Store kind α) (h : Handle kind) : Store kind α :=
  if s.isCurrent h then
    { slots := s.slots.modify h.index fun slot => ⟨slot.releases + 1, none⟩
      free := h.index :: s.free }
  else s

/-- Stores a value that may know its own handle. -/
def insert (s : Store kind α) (make : Handle kind → α) : Handle kind × Store kind α :=
  match s.free with
  | i :: free =>
    let h : Handle kind := ⟨i, (s.slots[i]?.map Slot.generation).getD 0⟩
    (h, { slots := s.slots.modify i fun slot => { slot with value := some (make h) }, free })
  | [] =>
    let h : Handle kind := ⟨s.slots.size, 0⟩
    (h, { slots := s.slots.push ⟨0, some (make h)⟩, free := [] })

end Store
end Barrage

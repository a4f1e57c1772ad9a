/-
  Recency.Arena.Basic — slots that outlive their values.

  An arena is a row of slots. A slot holds a value or is free; the free slots form a
  stack threaded through their own `next` links, `freeHead` on top. Filling a slot takes
  the top of that stack, or appends a slot when the stack is empty. Emptying a slot
  raises its generation and pushes it on the stack, so a handle (`SlotId`: index and
  generation) made for an earlier filling no longer resolves. Generations wrap at 2^32.

  The `prev` and `next` links of a filled slot belong to the chain built on the arena
  (`Recency.Chain`).

  Memory is counted, not allocated: `capacity` is the number of slots there is room
  for, and the `Allocator` says whether it may grow.
-/

namespace Recency

/-- A handle to one filling of a slot. -/
structure SlotId where
  index : UInt32
  generation : UInt32
  deriving DecidableEq, Repr

/-- Whether more memory can be had. -/
inductive Allocator where
  | grants
  | refuses
  deriving DecidableEq, Repr

inductive ArenaError where
  /-- More slots than 32-bit indices can name. -/
  | capacityOverflow
  /-- No memory for `requested` slots. -/
  | allocFailed (requested : Nat)
  deriving DecidableEq, Repr

structure Slot (α : Type) where
  value : Option α
  generation : UInt32
  prev : Option UInt32
  next : Option UInt32
  deriving DecidableEq, Repr

structure Arena (α : Type) where
  slots : Array (Slot α)
  freeHead : Option UInt32
  /-- How many slots hold a value. -/
  live : Nat
  capacity : Nat
  deriving DecidableEq, Repr

namespace Arena

variable {α : Type}

/-- The most slots an arena can have. -/
def maxSlots : Nat := 4294967295

def withCapacity (capacity : Nat) : Arena α := ⟨#[], none, 0, min capacity maxSlots⟩

/-! ## Reading -/

/-- The slot at `i`, if it holds a value. -/
def slot? (a : Arena α) (i : UInt32) : Option (Slot α) := a.slots[i.toNat]?.filter (·.value.isSome)

/-- The handle of the value now at `i`. -/
def idAt? (a : Arena α) (i : UInt32) : Option SlotId := (a.slot? i).map (⟨i, ·.generation⟩)

/-- The value `id` was made for, if it is still there. -/
def get? (a : Arena α) (id : SlotId) : Option α :=
  (a.slots[id.index.toNat]?.filter (·.generation = id.generation)).bind (·.value)

def contains (a : Arena α) (id : SlotId) : Bool := (a.get? id).isSome

/-- The values with their handles, by index. -/
def entries (a : Arena α) : List (SlotId × α) :=
  a.slots.toList.zipIdx.filterMap fun (s, i) => s.value.map (⟨UInt32.ofNat i, s.generation⟩, ·)

/-- At most `fuel` indices along the `next` links from `i`. -/
def follow (a : Arena α) : Nat → Option UInt32 → List UInt32
  | 0, _ => []
  | _, none => []
  | fuel + 1, some i => i :: follow a fuel (a.slots[i.toNat]?.bind (·.next))

/-- The free slots, last freed first. -/
def freeStack (a : Arena α) : List UInt32 := a.follow a.slots.size a.freeHead

/-! ## Changing -/

/-- Replaces the value of `id`; the value it had, if any, tells whether it did. -/
def set (a : Arena α) (id : SlotId) (value : α) : Option α × Arena α :=
  match a.get? id with
  | none => (none, a)
  | some old => (some old, { a with slots := a.slots.modify id.index.toNat ({ · with value := some value }) })

/-- Changes the slot at `i`, if it holds a value. -/
def modifySlot (a : Arena α) (i : UInt32) (f : Slot α → Slot α) : Arena α :=
  { a with slots := a.slots.modify i.toNat fun s => if s.value.isSome then f s else s }

/-- Makes room for `additional` slots beyond those there are. Room that has to grow at
    least doubles, and is never less than four slots. -/
def reserve (mem : Allocator) (additional : Nat) (a : Arena α) : Except ArenaError (Arena α) :=
  let wanted := a.slots.size + additional
  if maxSlots < wanted then .error .capacityOverflow
  else if wanted ≤ a.capacity then .ok a
  else match mem with
    | .refuses => .error (.allocFailed wanted)
    | .grants => .ok { a with capacity := max (max (2 * a.capacity) wanted) 4 }

/-- A new slot at the end. -/
def append (mem : Allocator) (value : α) (a : Arena α) : Except ArenaError (SlotId × Arena α) :=
  (a.reserve mem 1).map fun a =>
    (⟨UInt32.ofNat a.slots.size, 0⟩,
      { a with slots := a.slots.push ⟨some value, 0, none, none⟩, live := a.live + 1 })

/-- Fills the slot freed last, or a new one when none is free. -/
def insert (mem : Allocator) (value : α) (a : Arena α) : Except ArenaError (SlotId × Arena α) :=
  match a.freeHead with
  | none => a.append mem value
  | some i =>
    match a.slots[i.toNat]? with
    | none => a.append mem value
    | some s => .ok (⟨i, s.generation⟩,
        { a with
          slots := a.slots.modify i.toNat fun s => ⟨some value, s.generation, none, none⟩
          freeHead := s.next
          live := a.live + 1 })

/-- Empties the slot of `id` and puts it on the free stack. -/
def remove (id : SlotId) (a : Arena α) : Option (α × Arena α) :=
  (a.get? id).map fun value =>
    (value, { a with
      slots := a.slots.modify id.index.toNat fun s => ⟨none, s.generation + 1, none, a.freeHead⟩
      freeHead := some id.index
      live := a.live - 1 })

/-- Forgets every slot and keeps the room. Generations start over. -/
def clear (a : Arena α) : Arena α := { a with slots := #[], freeHead := none, live := 0 }

end Arena

/-- What an arena that cannot grow reports. -/
def ArenaError.message : ArenaError → String
  | .capacityOverflow => "slot arena capacity overflow"
  | .allocFailed requested => "slot arena allocation failed growing to " ++ toString requested ++ " slots"

end Recency

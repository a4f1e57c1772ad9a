import Recency.Arena.Basic
/-
  Recency.Chain.Basic — a doubly linked chain through the slots of an arena.

  The filled slots of the arena are the nodes. `head` and `tail` name the ends; the
  `prev` links lead to the head and the `next` links to the tail. Adding a node, taking
  one out and moving one to the front each touch at most the node and its neighbours.
  Links lead nowhere else than to filled slots: a link to a free slot is not followed.
-/

namespace Recency

structure Chain (α : Type) where
  arena : Arena α
  head : Option UInt32
  tail : Option UInt32
  deriving DecidableEq, Repr

namespace Chain

variable {α : Type}

def withCapacity (capacity : Nat) : Chain α := ⟨Arena.withCapacity capacity, none, none⟩

/-! ## Reading -/

def length (c : Chain α) : Nat := c.arena.live

def contains (c : Chain α) (id : SlotId) : Bool := c.arena.contains id

def get? (c : Chain α) (id : SlotId) : Option α := c.arena.get? id

def frontId? (c : Chain α) : Option SlotId := c.head.bind c.arena.idAt?

def backId? (c : Chain α) : Option SlotId := c.tail.bind c.arena.idAt?

def front? (c : Chain α) : Option α := (c.head.bind c.arena.slot?).bind (·.value)

def back? (c : Chain α) : Option α := (c.tail.bind c.arena.slot?).bind (·.value)

/-- At most `fuel` nodes from `i` toward the tail. -/
def walk (a : Arena α) : Nat → Option UInt32 → List (SlotId × α)
  | 0, _ => []
  | _, none => []
  | fuel + 1, some i =>
    match a.slots[i.toNat]? with
    | some ⟨some value, generation, _, next⟩ => (⟨i, generation⟩, value) :: walk a fuel next
    | _ => []

/-- The nodes from front to back. -/
def entries (c : Chain α) : List (SlotId × α) := walk c.arena c.arena.slots.size c.head

def values (c : Chain α) : List α := c.entries.map (·.2)

/-! ## Links -/

/-- Takes the node at `i` out of the chain, its slot still filled. -/
def unlink (c : Chain α) (i : UInt32) : Chain α :=
  match c.arena.slot? i with
  | none => c
  | some s =>
    let c : Chain α := match s.prev with
      | none => { c with head := s.next }
      | some p => { c with arena := c.arena.modifySlot p ({ · with next := s.next }) }
    let c : Chain α := match s.next with
      | none => { c with tail := s.prev }
      | some n => { c with arena := c.arena.modifySlot n ({ · with prev := s.prev }) }
    { c with arena := c.arena.modifySlot i ({ · with prev := none, next := none }) }

/-- Puts the filled slot at `i` before the head. -/
def attachFront (c : Chain α) (i : UInt32) : Chain α :=
  match c.arena.slot? i with
  | none => c
  | some _ =>
    let arena := c.arena.modifySlot i ({ · with prev := none, next := c.head })
    match c.head with
    | none => ⟨arena, some i, some i⟩
    | some h => ⟨arena.modifySlot h ({ · with prev := some i }), some i, c.tail⟩

/-! ## Changing -/

/-- Replaces a value in place, as `Arena.set` does. -/
def set (c : Chain α) (id : SlotId) (value : α) : Option α × Chain α :=
  let (old, arena) := c.arena.set id value
  (old, { c with arena })

def reserve (mem : Allocator) (additional : Nat) (c : Chain α) : Except ArenaError (Chain α) :=
  (c.arena.reserve mem additional).map ({ c with arena := · })

def pushFront (mem : Allocator) (value : α) (c : Chain α) : Except ArenaError (SlotId × Chain α) :=
  (c.arena.insert mem value).map fun (id, arena) => (id, { c with arena }.attachFront id.index)

/-- Whether `id` is a node, which then is the front. -/
def moveToFront (id : SlotId) (c : Chain α) : Bool × Chain α :=
  if c.contains id then
    (true, if c.head = some id.index then c else (c.unlink id.index).attachFront id.index)
  else (false, c)

/-- Unlinks the node of `id` and frees its slot. -/
def remove (id : SlotId) (c : Chain α) : Option (α × Chain α) :=
  if c.contains id then
    let c := c.unlink id.index
    (c.arena.remove id).map fun (value, arena) => (value, { c with arena })
  else none

def popBack (c : Chain α) : Option ((SlotId × α) × Chain α) :=
  c.backId?.bind fun id => (c.remove id).map fun (value, c) => ((id, value), c)

def clear (c : Chain α) : Chain α := ⟨c.arena.clear, none, none⟩

end Chain

end Recency

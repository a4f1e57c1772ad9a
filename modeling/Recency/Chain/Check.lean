import Recency.Chain.Basic
import Recency.Arena.Inspect
/-
  Recency.Chain.Check — whether a chain's links and its arena agree.

  The check walks from the head: each node must be filled and lead back to the node
  before it, the walk must end at the tail without meeting more nodes than there are
  values, and the nodes and the free slots together must be all the slots.
-/

namespace Recency.Chain

/-- The first thing found wrong with a chain. -/
inductive Fault where
  | oneEnd
  | headless (live : Nat)
  | freeLinked (index : UInt32)
  | badPrev (index : UInt32) (found wanted : Option UInt32)
  | cycle
  | badTail
  | unlinked (linked live : Nat)
  | lostSlots (linked free slots : Nat)
  deriving DecidableEq, Repr

def Fault.message : Fault → String
  | .oneEnd => "head/tail must be both set or both empty"
  | .headless live => "empty list but arena holds " ++ toString live ++ " live slots"
  | .freeLinked index => "linked slot " ++ toString index ++ " is free"
  | .badPrev index found wanted =>
    "slot " ++ toString index ++ " prev link " ++ inspectLink .inline found ++ " != " ++ inspectLink .inline wanted
  | .cycle => "cycle detected in recency list"
  | .badTail => "forward walk does not end at tail"
  | .unlinked linked live => toString linked ++ " linked nodes but " ++ toString live ++ " live slots"
  | .lostSlots linked free slots =>
    toString linked ++ " live + " ++ toString free ++ " free != " ++ toString slots ++ " slots"

variable {α : Type}

/-- Walks from `i`, which `prev` led to, over at most `room` nodes. The answer is the number
    of nodes met and the last of them. -/
def checkWalk (a : Arena α) : Nat → Option UInt32 → Option UInt32 → Except Fault (Nat × Option UInt32)
  | _, prev, none => .ok (0, prev)
  | room, prev, some i =>
    match a.slot? i with
    | none => .error (.freeLinked i)
    | some s =>
      if s.prev ≠ prev then .error (.badPrev i s.prev prev)
      else match room with
        | 0 => .error .cycle
        | room + 1 => (checkWalk a room (some i) s.next).map fun (n, last) => (n + 1, last)

/-- Nothing, or the first fault. -/
def check (c : Chain α) : Except Fault Unit := do
  if c.head.isSome ≠ c.tail.isSome then throw .oneEnd
  if c.head = none ∧ c.arena.live ≠ 0 then throw (.headless c.arena.live)
  let (linked, last) ← checkWalk c.arena c.arena.live none c.head
  if last ≠ c.tail then throw .badTail
  if linked ≠ c.arena.live then throw (.unlinked linked c.arena.live)
  let free := c.arena.freeStack.length
  if linked + free ≠ c.arena.slots.size then throw (.lostSlots linked free c.arena.slots.size)

end Recency.Chain

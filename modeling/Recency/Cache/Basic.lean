import Recency.Cache.Journal
import Recency.Chain.Basic
import Recency.Time.Clock
/-
  Recency.Cache.Basic — a cache that drops its least recently used entry.

  The entries are the nodes of a chain, most recently used first. An index maps each key
  to the handle of its node. `size` counts the entries and `bound` says how many there
  may be.

  Chain, index and size are changed one after the other by the actions below. An action
  that aborts, because a use of the index was made to fail, leaves those changes that it
  had made. A handle from the index is trusted only when it resolves to a node with the
  key looked for (`locate`).
-/

namespace Recency

structure Cache (κ ν : Type) where
  chain : Chain (Entry κ ν)
  index : Index κ
  size : UInt64
  bound : UInt64
  defaultTtl : Duration
  /-- Whether there is an eviction callback. -/
  notifies : Bool
  /-- Whether others hold the index too. -/
  sharesIndex : Bool
  clock : Clock
  memory : Allocator
  /-- The use of the index that is to fail. -/
  failing : Option Index.Failure
  counters : Counters
  /-- How many stays have begun. -/
  stays : Nat
  /-- What happened, latest first. -/
  journal : List (Event κ ν)

/-- A change of a cache that can abort. -/
abbrev Action (κ ν α : Type) : Type := EStateM Abort (Cache κ ν) α

namespace Cache

variable {κ ν : Type}

def now (c : Cache κ ν) : Instant := c.clock.now

/-- The entries, most recently used first. -/
def entries (c : Cache κ ν) : List (Entry κ ν) := c.chain.values

/-- The entries that have not expired. -/
def fresh (c : Cache κ ν) : List (Entry κ ν) := c.entries.filter fun e => !e.expired c.now

/-! ## Record keeping -/

def record (e : Event κ ν) : Action κ ν Unit := modify fun c => { c with journal := e :: c.journal }

def note (n : Note) : Action κ ν Unit := record (.noted n)

def count (m : Metric) : Action κ ν Unit := modify fun c => { c with counters := c.counters.bump m }

/-! ## The bound -/

/-- The bound in place of zero. -/
def defaultBound : UInt64 := 1000

def effectiveBound (asked : UInt64) : UInt64 := if asked = 0 then defaultBound else asked

/-- Puts the bound asked for in force, with a warning when that was zero. -/
def setBound (asked : UInt64) : Action κ ν Unit := do
  if asked = 0 then note (.defaultBound defaultBound)
  modify fun c => { c with bound := effectiveBound asked }

def hasRoom (c : Cache κ ν) : Bool := c.size < c.bound

/-! ## The index -/

/-- Makes a use of the index fail, or none. An index that nobody shares never fails. -/
def failIndex (failure : Option Index.Failure) : Action κ ν Unit :=
  modify fun c => { c with failing := if c.sharesIndex then failure else none }

/-- Fails if this is the use of `step` that was made to fail. -/
def useIndex (step : Index.Primitive) : Action κ ν Unit := do
  match (← get).failing with
  | none => return
  | some f =>
    modify fun c => { c with failing := f.use step }
    if (f.use step).isNone then throw (.indexFailed step)

variable [DecidableEq κ]

def load (k : κ) : Action κ ν (Option SlotId) := do
  useIndex .load
  return (← get).index.get? k

def store (k : κ) (id : SlotId) : Action κ ν Unit := do
  useIndex .store
  modify fun c => { c with index := c.index.insert k id }

/-- Unmaps `k` if it is mapped to `id`. -/
def unmap (k : κ) (id : SlotId) : Action κ ν Unit := do
  useIndex .compute
  modify fun c => { c with index := c.index.update k fun held => if held = id then .remove else .keep }

def unmapAll : Action κ ν Unit := do
  useIndex .clear
  modify fun c => { c with index := .empty }

/-- The node that holds `k`, according to the index and the chain. -/
def locate (k : κ) : Action κ ν (Option (SlotId × Entry κ ν)) := do
  match ← load k with
  | none => return none
  | some id =>
    match (← get).chain.get? id with
    | none => return none
    | some e => return if e.key = k then some (id, e) else none

/-! ## Entries -/

/-- Begins a stay at the front, unless there is no memory for it. -/
def enter (k : κ) (value : ν) (deadline : Option Instant) : Action κ ν (Except ArenaError Unit) := do
  let c ← get
  let e : Entry κ ν := ⟨c.stays, k, value, deadline⟩
  match c.chain.pushFront c.memory e with
  | .error err => return .error err
  | .ok (id, chain) =>
    modify fun c => { c with chain, stays := c.stays + 1 }
    record (.entered e)
    store k id
    modify fun c => { c with size := c.size + 1 }
    count .insertNew
    return .ok ()

/-- Gives the entry `e` at `id` a new value and deadline, and moves it to the front. -/
def overwrite (id : SlotId) (e : Entry κ ν) (value : ν) (deadline : Option Instant) : Action κ ν Unit := do
  let e := { e with value, deadline }
  modify fun c => { c with chain := ((c.chain.set id e).2.moveToFront id).2 }
  record (.overwritten e)
  count .insertUpdate

def promote (id : SlotId) : Action κ ν Unit :=
  modify fun c => { c with chain := (c.chain.moveToFront id).2 }

/-- Ends the stay at `id`: its node, its mapping and its count, in this order. -/
def detach (id : SlotId) (cause : Cause) : Action κ ν (Option (Entry κ ν)) := do
  match (← get).chain.remove id with
  | none => return none
  | some (e, chain) =>
    modify fun c => { c with chain }
    record (.left e cause)
    unmap e.key id
    modify fun c => { c with size := c.size - 1 }
    return some e

/-- Drops the least recently used entry. -/
def evict : Action κ ν (Option (Entry κ ν)) := do
  match (← get).chain.backId? with
  | none => return none
  | some id =>
    match ← detach id .capacity with
    | none => return none
    | some e =>
      note (.evicted (← get).size)
      count .evicted
      return some e

/-- Drops those of `ids` that are there, and gives their entries. -/
def reap : List SlotId → Action κ ν (List (Entry κ ν))
  | [] => return []
  | id :: ids => do
    match ← detach id .expired with
    | none => reap ids
    | some e =>
      count .expired
      return e :: (← reap ids)

/-- Drops every entry at once, and gives them, least recently used first. -/
def dropAll : Action κ ν (List (Entry κ ν)) := do
  let victims := (← get).entries.reverse
  modify fun c => { c with chain := c.chain.clear, size := 0 }
  victims.forM fun e => record (.left e .cleared)
  unmapAll
  return victims

end Cache

end Recency

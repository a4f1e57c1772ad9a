import Recency.Session
import Recency.Cache.Settings
/-
  Recency.Proofs.Plain.Basic — a cache as a plain list.

  The entries are one list, most recently used first. Nothing else says which key is where
  or how many entries there are. The list cache carries out the same operations in the same
  pieces as `Cache` does, so both run on the same machine with the same reactions; what one
  does is compared with what the other does state by state.

  Whether there is memory for one more entry is not a matter of the list. `Room` keeps the
  accounts for it. What a look at a shared index tells (handles) is not in the list either:
  `look` stands for the answers to that.
-/

namespace Recency

/-- Memory for entries. A place once taken stays, in use or free, until all are given up. -/
structure Room where
  places : Nat
  capacity : Nat
  memory : Allocator
  deriving DecidableEq, Repr

/-- A place for one more entry than the `held` there are: one that is free, or a new one. -/
def Room.take (held : Nat) (r : Room) : Except ArenaError Room :=
  if held < r.places then .ok r
  else if Arena.maxSlots < r.places + 1 then .error .capacityOverflow
  else if r.places + 1 ≤ r.capacity then .ok { r with places := r.places + 1 }
  else match r.memory with
    | .refuses => .error (.allocFailed (r.places + 1))
    | .grants => .ok { r with places := r.places + 1, capacity := max (max (2 * r.capacity) (r.places + 1)) 4 }

structure Plain (κ ν : Type) where
  /-- Most recently used first. -/
  entries : List (Entry κ ν)
  bound : UInt64
  defaultTtl : Duration
  notifies : Bool
  clock : Clock
  room : Room
  counters : Counters
  stays : Nat
  journal : List (Event κ ν)

namespace Plain

variable {κ ν : Type}

abbrev Result (κ ν : Type) : Type := EStateM.Result Abort (Plain κ ν) (Progress κ ν)

/-! ## Reading -/

def now (p : Plain κ ν) : Instant := p.clock.now

def size (p : Plain κ ν) : UInt64 := UInt64.ofNat p.entries.length

def hasRoom (p : Plain κ ν) : Bool := p.entries.length < p.bound.toNat

/-- The entries that have not expired. -/
def fresh (p : Plain κ ν) : List (Entry κ ν) := p.entries.filter fun e => !e.expired p.now

def find? [DecidableEq κ] (p : Plain κ ν) (k : κ) : Option (Entry κ ν) := p.entries.find? (·.key = k)

def snapshot? (p : Plain κ ν) : Option Snapshot := p.counters.snapshot? p.size p.bound

def inspect (l : Text.Layout) (p : Plain κ ν) : String :=
  l.record "LruCache" [("len", toString p.size), ("max_size", toString p.bound),
    ("default_ttl", p.defaultTtl.text), ("on_eviction", toString p.notifies)] true

/-! ## Record keeping -/

def record (e : Event κ ν) (p : Plain κ ν) : Plain κ ν := { p with journal := e :: p.journal }

def note (n : Note) (p : Plain κ ν) : Plain κ ν := p.record (.noted n)

def count (m : Metric) (p : Plain κ ν) : Plain κ ν := { p with counters := p.counters.bump m }

def setBound (asked : UInt64) (p : Plain κ ν) : Plain κ ν :=
  { if asked = 0 then p.note (.defaultBound Cache.defaultBound) else p with bound := Cache.effectiveBound asked }

/-! ## Changing the list -/

/-- Begins a stay in front, if there is room for it. -/
def enter (k : κ) (value : ν) (deadline : Option Instant) (p : Plain κ ν) : Except ArenaError (Plain κ ν) :=
  (p.room.take p.entries.length).map fun room =>
    let e : Entry κ ν := ⟨p.stays, k, value, deadline⟩
    ({ p with entries := e :: p.entries, room, stays := p.stays + 1 }.record (.entered e)).count .insertNew

/-- Drops the last entry, if there is one. -/
def evict? (p : Plain κ ν) : Option (Entry κ ν × Plain κ ν) :=
  p.entries.getLast?.map fun e =>
    let p := { p with entries := p.entries.dropLast }.record (.left e .capacity)
    (e, (p.note (.evicted p.size)).count .evicted)

variable [DecidableEq κ]

/-- Puts `e` in front, in place of the entry of its key. -/
def front (e : Entry κ ν) (p : Plain κ ν) : Plain κ ν :=
  { p with entries := e :: p.entries.filter (·.key ≠ e.key) }

def overwrite (e : Entry κ ν) (value : ν) (deadline : Option Instant) (p : Plain κ ν) : Plain κ ν :=
  let e := { e with value, deadline }
  ((p.front e).record (.overwritten e)).count .insertUpdate

/-- Ends the stay of `e`. -/
def leave (e : Entry κ ν) (cause : Cause) (p : Plain κ ν) : Plain κ ν :=
  { p with entries := p.entries.filter (·.key ≠ e.key) }.record (.left e cause)

def reap (victims : List (Entry κ ν)) (p : Plain κ ν) : Plain κ ν :=
  victims.foldl (fun p e => (p.leave e .expired).count .expired) p

/-- Ends every stay and gives up every place. -/
def dropAll (p : Plain κ ν) : Plain κ ν :=
  { p with
    entries := []
    room := { p.room with places := 0 }
    journal := p.entries.map (.left · .cleared) ++ p.journal }

/-! ## Tasks -/

def refuse (refusal : OnRefusal) (e : ArenaError) (p : Plain κ ν) : Result κ ν :=
  match refusal with
  | .abort => .error (.refused e) p
  | .report => .ok (.done (.refused e)) p

def finishPut (k : κ) (value : ν) (deadline : Option Instant) (refusal : OnRefusal) (p : Plain κ ν) : Result κ ν :=
  match p.enter k value deadline with
  | .error e => p.refuse refusal e
  | .ok p => .ok (.done (Cache.stored refusal)) p

def resumePut (k : κ) (value : ν) (deadline : Option Instant) (refusal : OnRefusal) (p : Plain κ ν) : Result κ ν :=
  match p.find? k with
  | some e => .ok (.done (Cache.stored refusal)) (p.overwrite e value deadline)
  | none =>
    if p.hasRoom then p.finishPut k value deadline refusal
    else match p.evict? with
      | none => p.finishPut k value deadline refusal
      | some (victim, p) => .ok (.release (some victim) (.put k value deadline refusal)) p

def finishGetOrPut (k : κ) (value : ν) (ttl : Duration) (refusal : OnRefusal) (p : Plain κ ν) : Result κ ν :=
  match (p.count .getMiss).enter k value (p.clock.deadline ttl) with
  | .error e => (p.count .getMiss).refuse refusal e
  | .ok p => .ok (.done (.got value false)) p

def resumeGetOrPut (k : κ) (value : ν) (ttl : Duration) (refusal : OnRefusal) (p : Plain κ ν) : Result κ ν :=
  match p.find? k with
  | some e =>
    if e.expired p.now then
      .ok (.release (some e) (.getOrPut k value ttl refusal)) ((p.leave e .expired).count .expired)
    else .ok (.done (.got e.value true)) ((p.front e).count .getHit)
  | none =>
    if p.hasRoom then p.finishGetOrPut k value ttl refusal
    else match p.evict? with
      | none => p.finishGetOrPut k value ttl refusal
      | some (victim, p) => .ok (.release (some victim) (.getOrPut k value ttl refusal)) p

def resumeShrink (bound : UInt64) (dropped : Nat) (p : Plain κ ν) : Result κ ν :=
  if p.bound.toNat < p.entries.length then
    match p.evict? with
    | none => .ok (.done .unit) (p.note (.resized bound dropped))
    | some (victim, p) => .ok (.release (some victim) (.shrink bound (dropped + 1))) p
  else .ok (.done .unit) (p.note (.resized bound dropped))

def resume : Task κ ν → Plain κ ν → Result κ ν
  | .put k value deadline refusal, p => p.resumePut k value deadline refusal
  | .getOrPut k value ttl refusal, p => p.resumeGetOrPut k value ttl refusal
  | .shrink bound dropped, p => p.resumeShrink bound dropped
  | .notify (victim :: victims) ending reply, p => .ok (.release (some victim) (.notify victims ending reply)) p
  | .notify [] none reply, p => .ok (.done reply) p
  | .notify [] (some n) reply, p => .ok (.done reply) (p.note n)

/-! ## Operations -/

def read (k : κ) (touch : Bool) (p : Plain κ ν) : Result κ ν :=
  match p.find? k with
  | none => .ok (.done (.hit none)) (p.count .getMiss)
  | some e =>
    if e.expired p.now then
      .ok (.release (some e) (.notify [] none (.hit none)))
        ((((p.leave e .expired).count .getMiss).note .reaped).count .expired)
    else .ok (.done (.hit (some e.value))) ((if touch then p.front e else p).count .getHit)

def delete (k : κ) (p : Plain κ ν) : Result κ ν :=
  match p.find? k with
  | none => .ok (.done (.flag false)) p
  | some e => .ok (.release (some e) (.notify [] none (.flag true))) ((p.leave e .deleted).count .removed)

/-- Drops the expired entries first and then notifies of them, front to back. -/
def purge (p : Plain κ ν) : Result κ ν :=
  let victims := p.entries.filter (·.expired p.now)
  (p.reap victims).resume
    (.notify (if p.notifies then victims else []) (some (.purged victims.length)) (.count victims.length))

/-- Drops the entries first and then notifies of them, back to front. -/
def clear (p : Plain κ ν) : Result κ ν :=
  (p.dropAll.count .clear).resume
    (.notify (if p.notifies then p.entries.reverse else []) (some (.cleared p.size)) .unit)

/-- What is wrong with a list cache: at most that it holds too much. -/
def check (p : Plain κ ν) : Reply κ ν := if p.bound < p.size then .faulty (.overBound p.size p.bound) else .ok

def withSnapshot (f : Snapshot → Reply κ ν) (p : Plain κ ν) : Result κ ν :=
  match p.snapshot? with
  | none => .error .overflow p
  | some s => .ok (.done (f s)) p

def start (look : Index.Op κ → Reply κ ν) : Op κ ν → Plain κ ν → Result κ ν
  | .put k value ttl refusal, p => p.resumePut k value (p.clock.deadline (ttl.getD p.defaultTtl)) refusal
  | .getOrPut k value ttl refusal, p => p.resumeGetOrPut k value ttl refusal
  | .get k, p => p.read k true
  | .peek k, p => p.read k false
  | .has k, p => .ok (.done (.flag ((p.find? k).any fun e => !e.expired p.now))) p
  | .delete k, p => p.delete k
  | .resize asked, p => (p.setBound asked).resumeShrink (Cache.effectiveBound asked) 0
  | .purge, p => p.purge
  | .clear, p => p.clear
  | .keys, p => .ok (.done (.keys (p.fresh.map (·.key)))) p
  | .values, p => .ok (.done (.values (p.fresh.map (·.value)))) p
  | .visit stopAfter, p =>
    let kvs := p.fresh.map fun e => (e.key, e.value)
    .ok (.done (.visited (if stopAfter = 0 then kvs else kvs.take stopAfter))) p
  | .length, p => .ok (.done (.count p.entries.length)) p
  | .bound, p => .ok (.done (.count p.bound.toNat)) p
  | .isEmpty, p => .ok (.done (.flag p.entries.isEmpty)) p
  | .defaultTtl, p => .ok (.done (.span p.defaultTtl)) p
  | .check, p => .ok (.done p.check) p
  | .inspect layout, p => .ok (.done (.text (p.inspect layout))) p
  | .metrics, p => p.withSnapshot .snapshot
  | .snapshot, p => p.withSnapshot .snapshot
  | .expose family limit, p => p.withSnapshot fun s => .text (Exposition.clip limit (Exposition.text family s))
  | .advance step, p => .ok (.done .unit) { p with clock := p.clock.advance step }
  | .elapsed, p => .ok (.done (.span p.clock.elapsed)) p
  | .abort message, p => .error (.raised message) p
  | .memory memory, p => .ok (.done .unit) { p with room := { p.room with memory } }
  | .index op, p => .ok (.done (look op)) p
  | .failIndex _, p => .ok (.done .unit) p

def engine (look : Index.Op κ → Reply κ ν) : Engine (Plain κ ν) κ ν where
  start := start look
  resume := resume
  notifies p := p.notifies
  record := record
  length p := p.entries.length

/-- An empty list cache. -/
def ofSettings (s : Settings) : Plain κ ν where
  entries := []
  bound := Cache.effectiveBound s.bound
  defaultTtl := s.defaultTtl
  notifies := s.notifies
  clock := .origin
  room := ⟨0, min (min s.initialCapacity (Cache.effectiveBound s.bound).toNat) Arena.maxSlots, .grants⟩
  counters := .zero
  stays := 0
  journal := if s.bound = 0 then [.noted (.defaultBound Cache.defaultBound)] else []

end Plain

end Recency

import Recency.Cache.Check
import Recency.Cache.Inspect
import Recency.Metrics.Exposition
/-
  Recency.Cache.Task — cache operations, cut where the eviction callback is called.

  A callback may use the cache that called it. So an operation runs only up to the next
  callback; what is left of it is a task, data that waits until the callback is over and
  then looks at the cache anew. `start` begins an operation and `resume` goes on with a
  task. Each yields the answer, or an entry to notify of and the task that remains.

  A store makes room one entry at a time, and looks for its key again after each. A
  resize likewise drops one entry at a time, against the bound as it then is. Purging
  and clearing drop all their entries first and then notify of one after the other.
-/

namespace Recency

/-- What is left of an operation. -/
inductive Task (κ ν : Type) where
  | put (key : κ) (value : ν) (deadline : Option Instant) (refusal : OnRefusal)
  | getOrPut (key : κ) (value : ν) (ttl : Duration) (refusal : OnRefusal)
  /-- A resize to `bound` that has dropped `dropped` entries. -/
  | shrink (bound : UInt64) (dropped : Nat)
  /-- Entries to notify of, and how the operation ends. -/
  | notify (victims : List (Entry κ ν)) (note : Option Note) (reply : Reply κ ν)
  deriving DecidableEq, Repr

inductive Progress (κ ν : Type) where
  | done (reply : Reply κ ν)
  /-- An entry has left, or none; the task goes on after the callback. -/
  | release (victim : Option (Entry κ ν)) (rest : Task κ ν)
  deriving DecidableEq, Repr

namespace Cache

variable {κ ν : Type} [DecidableEq κ]

/-- A store that found no memory ends here. -/
def refuse (refusal : OnRefusal) (e : ArenaError) : Action κ ν (Progress κ ν) :=
  match refusal with
  | .abort => throw (.refused e)
  | .report => return .done (.refused e)

/-- What a store that succeeded answers. -/
def stored : OnRefusal → Reply κ ν
  | .abort => .unit
  | .report => .ok

/-! ## Tasks -/

def finishPut (k : κ) (value : ν) (deadline : Option Instant) (refusal : OnRefusal) :
    Action κ ν (Progress κ ν) := do
  match ← enter k value deadline with
  | .error e => refuse refusal e
  | .ok () => return .done (stored refusal)

def resumePut (k : κ) (value : ν) (deadline : Option Instant) (refusal : OnRefusal) :
    Action κ ν (Progress κ ν) := do
  match ← locate k with
  | some (id, e) =>
    overwrite id e value deadline
    return .done (stored refusal)
  | none =>
    if (← get).hasRoom then finishPut k value deadline refusal
    else match ← evict with
      | none => finishPut k value deadline refusal
      | some victim => return .release victim (.put k value deadline refusal)

def finishGetOrPut (k : κ) (value : ν) (ttl : Duration) (refusal : OnRefusal) :
    Action κ ν (Progress κ ν) := do
  count .getMiss
  match ← enter k value ((← get).clock.deadline ttl) with
  | .error e => refuse refusal e
  | .ok () => return .done (.got value false)

def resumeGetOrPut (k : κ) (value : ν) (ttl : Duration) (refusal : OnRefusal) :
    Action κ ν (Progress κ ν) := do
  match ← locate k with
  | some (id, e) =>
    if e.expired (← get).now then
      let reaped ← detach id .expired
      if reaped.isSome then count .expired
      return .release reaped (.getOrPut k value ttl refusal)
    else
      promote id
      count .getHit
      return .done (.got e.value true)
  | none =>
    if (← get).hasRoom then finishGetOrPut k value ttl refusal
    else match ← evict with
      | none => finishGetOrPut k value ttl refusal
      | some victim => return .release victim (.getOrPut k value ttl refusal)

def resumeShrink (bound : UInt64) (dropped : Nat) : Action κ ν (Progress κ ν) := do
  let c ← get
  if c.bound < c.size then
    match ← evict with
    | some victim => return .release victim (.shrink bound (dropped + 1))
    | none =>
      note (.resized bound dropped)
      return .done .unit
  else
    note (.resized bound dropped)
    return .done .unit

def resume : Task κ ν → Action κ ν (Progress κ ν)
  | .put k value deadline refusal => resumePut k value deadline refusal
  | .getOrPut k value ttl refusal => resumeGetOrPut k value ttl refusal
  | .shrink bound dropped => resumeShrink bound dropped
  | .notify (victim :: victims) ending reply => return .release victim (.notify victims ending reply)
  | .notify [] ending reply => do
    ending.forM note
    return .done reply

/-! ## Operations -/

/-- Reads `k`, and makes it the most recently used if `touch` says so. An expired entry is
    dropped and reads as missing. -/
def read (k : κ) (touch : Bool) : Action κ ν (Progress κ ν) := do
  if (← load k).isNone then
    count .getMiss
    return .done (.hit none)
  else match ← locate k with
    | none =>
      count .getMiss
      return .done (.hit none)
    | some (id, e) =>
      if e.expired (← get).now then
        let reaped ← detach id .expired
        count .getMiss
        if reaped.isSome then
          note .reaped
          count .expired
        return .release reaped (.notify [] none (.hit none))
      else
        if touch then promote id
        count .getHit
        return .done (.hit (some e.value))

def has (k : κ) : Action κ ν Bool := do
  if (← load k).isNone then return false
  else match ← locate k with
    | none => return false
    | some (_, e) => return !e.expired (← get).now

def delete (k : κ) : Action κ ν (Progress κ ν) := do
  if (← load k).isNone then return .done (.flag false)
  else match ← locate k with
    | none => return .done (.flag false)
    | some (id, _) =>
      match ← detach id .deleted with
      | none => return .done (.flag false)
      | some e =>
        count .removed
        return .release (some e) (.notify [] none (.flag true))

def purge : Action κ ν (Progress κ ν) := do
  let c ← get
  let due := (c.chain.entries.filter fun (_, e) => e.expired c.now).map (·.1)
  let victims ← reap due
  resume (.notify (if c.notifies then victims else []) (some (.purged victims.length)) (.count victims.length))

def clear : Action κ ν (Progress κ ν) := do
  let c ← get
  let victims ← dropAll
  count .clear
  resume (.notify (if c.notifies then victims else []) (some (.cleared c.size)) .unit)

/-- A snapshot of the counters, with the present length and bound. -/
def snapshot : Action κ ν Snapshot := do
  let c ← get
  match c.counters.snapshot? c.size c.bound with
  | none => throw .overflow
  | some s => return s

def start : Op κ ν → Action κ ν (Progress κ ν)
  | .put k value ttl refusal => do
    let c ← get
    resume (.put k value (c.clock.deadline (ttl.getD c.defaultTtl)) refusal)
  | .getOrPut k value ttl refusal => resume (.getOrPut k value ttl refusal)
  | .get k => read k true
  | .peek k => read k false
  | .has k => return .done (.flag (← has k))
  | .delete k => delete k
  | .resize asked => do
    setBound asked
    resume (.shrink (effectiveBound asked) 0)
  | .purge => purge
  | .clear => clear
  | .keys => return .done (.keys ((← get).fresh.map (·.key)))
  | .values => return .done (.values ((← get).fresh.map (·.value)))
  | .visit stopAfter => do
    let kvs := (← get).fresh.map fun e => (e.key, e.value)
    return .done (.visited (if stopAfter = 0 then kvs else kvs.take stopAfter))
  | .length => return .done (.count (← get).size.toNat)
  | .bound => return .done (.count (← get).bound.toNat)
  | .isEmpty => return .done (.flag ((← get).size = 0))
  | .defaultTtl => return .done (.span (← get).defaultTtl)
  | .check => return .done (match ← check with | none => .ok | some f => .faulty f)
  | .inspect layout => return .done (.text ((← get).inspect layout))
  | .metrics => return .done (.snapshot (← snapshot))
  | .snapshot => return .done (.snapshot (← snapshot))
  | .expose family limit => return .done (.text (Exposition.clip limit (Exposition.text family (← snapshot))))
  | .advance step => do
    modify fun c => { c with clock := c.clock.advance step }
    return .done .unit
  | .elapsed => return .done (.span (← get).clock.elapsed)
  | .abort message => throw (.raised message)
  | .memory memory => do
    modify fun c => { c with memory }
    return .done .unit
  | .index op => do
    let c ← get
    if c.sharesIndex then
      let (reply, index) := c.index.apply op
      modify fun c => { c with index }
      return .done (.index reply)
    else return .done .unit
  | .failIndex failure => do
    failIndex failure
    return .done .unit

end Cache

end Recency

/-
  Recency.Metrics.Counters — what a cache counts.

  Eight 64-bit counters that wrap. A snapshot adds the sum of hits and misses, which must
  fit 64 bits, and the two gauges it is given.
-/

namespace Recency

/-- The things counted. -/
inductive Metric where
  | getHit
  | getMiss
  | insertNew
  | insertUpdate
  | evicted
  | expired
  | removed
  | clear
  deriving DecidableEq, Repr

structure Counters where
  getHits : UInt64
  getMisses : UInt64
  insertNew : UInt64
  insertUpdates : UInt64
  evicted : UInt64
  expired : UInt64
  removed : UInt64
  clearCalls : UInt64
  deriving DecidableEq, Repr

structure Snapshot where
  getCalls : UInt64
  getHits : UInt64
  getMisses : UInt64
  insertNew : UInt64
  insertUpdates : UInt64
  evicted : UInt64
  expired : UInt64
  removed : UInt64
  clearCalls : UInt64
  length : UInt64
  capacity : UInt64
  deriving DecidableEq, Repr

/-- The counters a snapshot shows. -/
def Snapshot.counters (s : Snapshot) : Counters :=
  ⟨s.getHits, s.getMisses, s.insertNew, s.insertUpdates, s.evicted, s.expired, s.removed, s.clearCalls⟩

namespace Counters

def zero : Counters := ⟨0, 0, 0, 0, 0, 0, 0, 0⟩

def bump (c : Counters) : Metric → Counters
  | .getHit => { c with getHits := c.getHits + 1 }
  | .getMiss => { c with getMisses := c.getMisses + 1 }
  | .insertNew => { c with insertNew := c.insertNew + 1 }
  | .insertUpdate => { c with insertUpdates := c.insertUpdates + 1 }
  | .evicted => { c with evicted := c.evicted + 1 }
  | .expired => { c with expired := c.expired + 1 }
  | .removed => { c with removed := c.removed + 1 }
  | .clear => { c with clearCalls := c.clearCalls + 1 }

/-- Nothing when hits and misses together do not fit 64 bits. -/
def snapshot? (c : Counters) (length capacity : UInt64) : Option Snapshot :=
  if c.getHits.toNat + c.getMisses.toNat < UInt64.size then
    some ⟨c.getHits + c.getMisses, c.getHits, c.getMisses, c.insertNew, c.insertUpdates, c.evicted,
      c.expired, c.removed, c.clearCalls, length, capacity⟩
  else none

/-- A snapshot shows each counter as it is and the gauges as they are given, and its reads are the hits and
    the misses. One is taken whenever their sum fits. -/
theorem snapshot?_eq_some_iff {c : Counters} {length capacity : UInt64} {s : Snapshot} :
    c.snapshot? length capacity = some s ↔
      s.counters = c ∧ s.length = length ∧ s.capacity = capacity ∧
        s.getCalls.toNat = c.getHits.toNat + c.getMisses.toNat := by
  have hsum := UInt64.toNat_add c.getHits c.getMisses
  unfold snapshot?
  split
  case isTrue hlt =>
    rw [Nat.mod_eq_of_lt hlt] at hsum
    constructor
    · rintro ⟨⟩
      exact ⟨rfl, rfl, rfl, hsum⟩
    · rintro ⟨rfl, rfl, rfl, hcalls⟩
      have heq : s.counters.getHits + s.counters.getMisses = s.getCalls :=
        UInt64.toNat_inj.mp (hsum.trans hcalls.symm)
      rw [heq]
      rfl
  case isFalse hge =>
    constructor
    · exact nofun
    · rintro ⟨-, -, -, hcalls⟩
      exact absurd (hcalls ▸ s.getCalls.toNat_lt) hge

end Counters

/-- The share of reads that hit; zero when there were none. -/
def Snapshot.hitRatio (s : Snapshot) : Float :=
  if s.getCalls = 0 then 0.0 else s.getHits.toFloat / s.getCalls.toFloat

end Recency

import Recency.Chain.Check
/-
  Recency.Cache.Failure — how a cache operation fails, and what a check can find.

  An abort unwinds the operation and every operation that waits for it. What had been
  changed until then stays changed.
-/

namespace Recency

/-- The steps of an index that can be made to fail. -/
inductive Index.Primitive where
  | load
  | store
  | compute
  | clear
  deriving DecidableEq, Repr

def Index.Primitive.name : Index.Primitive → String
  | .load => "load"
  | .store => "store"
  | .compute => "compute"
  | .clear => "clear"

/-- A use of an index that fails: the use of `step` that comes after `after` others that do not. -/
structure Index.Failure where
  step : Index.Primitive
  after : Nat
  deriving DecidableEq, Repr

/-- When nothing is said of others, the next use fails. -/
instance : Coe Index.Primitive Index.Failure := ⟨fun step => ⟨step, 0⟩⟩

/-- What is still to fail after a use of `step`: nothing, if that is the use that fails. -/
def Index.Failure.use (f : Index.Failure) (step : Index.Primitive) : Option Index.Failure :=
  if f.step = step then
    match f.after with
    | 0 => none
    | n + 1 => some { f with after := n }
  else some f

inductive Abort where
  /-- No memory for a store that may not report it. -/
  | refused (e : ArenaError)
  | indexFailed (step : Index.Primitive)
  /-- A sum that does not fit 64 bits. -/
  | overflow
  /-- Asked for, with a message. -/
  | raised (message : String)
  deriving DecidableEq, Repr

def Abort.message : Abort → String
  | .refused e => "lru cache insert failed: " ++ e.message
  | .indexFailed step => "index " ++ step.name ++ " failed"
  | .overflow => "attempt to add with overflow"
  | .raised message => message

namespace Cache

/-- The first thing found wrong with a cache. -/
inductive Fault where
  | chain (f : Chain.Fault)
  | size (counted : UInt64) (linked : Nat)
  | overBound (counted bound : UInt64)
  | indexSize (keys nodes : Nat)
  | misdirected (index : UInt32)
  deriving DecidableEq, Repr

def Fault.message : Fault → String
  | .chain f => f.message
  | .size counted linked => "size counter " ++ toString counted ++ " != " ++ toString linked ++ " linked nodes"
  | .overBound counted bound => "size " ++ toString counted ++ " exceeds max_size " ++ toString bound
  | .indexSize keys nodes =>
    "index holds " ++ toString keys ++ " keys but list holds " ++ toString nodes ++ " nodes"
  | .misdirected index => "index does not map slot " ++ toString index ++ " back to its node"

end Cache

end Recency

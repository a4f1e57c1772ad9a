import Recency.Cache.Basic
/-
  Recency.Cache.Check — whether a cache's chain, index and counts agree.

  Beyond the check of the chain itself: the count of entries is the number of nodes and
  within the bound, the index has as many keys as there are nodes, and it maps the key
  of each node to that node.
-/

namespace Recency.Cache

variable {κ ν : Type} [DecidableEq κ]

/-- The first node that the index does not lead to. -/
def misdirected? : List (SlotId × Entry κ ν) → Action κ ν (Option SlotId)
  | [] => return none
  | (id, e) :: rest => do
    if (← load e.key) = some id then misdirected? rest else return some id

/-- Nothing, or the first fault. -/
def check : Action κ ν (Option Fault) := do
  let c ← get
  match c.chain.check with
  | .error f => return some (.chain f)
  | .ok () =>
    if c.size.toNat ≠ c.chain.length then return some (.size c.size c.chain.length)
    else if c.bound < c.size then return some (.overBound c.size c.bound)
    else if c.index.size ≠ c.chain.length then return some (.indexSize c.index.size c.chain.length)
    else return (← misdirected? c.chain.entries).map (.misdirected ·.index)

end Recency.Cache

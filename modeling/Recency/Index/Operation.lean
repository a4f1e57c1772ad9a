import Recency.Index.Basic
/-
  Recency.Index.Operation — what can be asked of an index, as data.
-/

namespace Recency.Index

inductive Op (κ : Type) where
  | load (key : κ)
  | store (key : κ) (id : SlotId)
  | delete (key : κ)
  | compute (key : κ) (rule : Rule)
  | isEmpty
  | clear
  deriving DecidableEq, Repr

inductive Reply where
  | slot (id : Option SlotId)
  /-- The handle seen; with none there was nothing to judge. -/
  | computed (seen : Option SlotId)
  | flag (b : Bool)
  | unit
  deriving DecidableEq, Repr

variable {κ : Type} [DecidableEq κ]

def apply (x : Index κ) : Op κ → Reply × Index κ
  | .load k => (.slot (x.get? k), x)
  | .store k id => (.slot (x.get? k), x.insert k id)
  | .delete k => (.slot (x.get? k), x.erase k)
  | .compute k rule => (.computed (x.get? k), x.update k rule.judge)
  | .isEmpty => (.flag (x.size = 0), x)
  | .clear => (.unit, empty)

end Recency.Index

import Recency.Arena.Basic
/-
  Recency.Index.Basic — which slot holds which key.

  An index maps each key to at most one handle. Nothing here knows whether a handle
  still resolves; the cache checks that against its chain.
-/

namespace Recency

structure Index (κ : Type) where
  entries : List (κ × SlotId)
  keys_nodup : (entries.map Prod.fst).Nodup

namespace Index

variable {κ : Type} [DecidableEq κ]

def empty : Index κ := ⟨[], List.nodup_nil⟩

def size (x : Index κ) : Nat := x.entries.length

def get? (x : Index κ) (k : κ) : Option SlotId := (x.entries.find? (·.1 = k)).map (·.2)

def erase (x : Index κ) (k : κ) : Index κ where
  entries := x.entries.filter (·.1 ≠ k)
  keys_nodup := x.keys_nodup.sublist (List.filter_sublist.map Prod.fst)

/-- Maps `k` to `id`, whatever it was mapped to. -/
def insert (x : Index κ) (k : κ) (id : SlotId) : Index κ where
  entries := (k, id) :: (x.erase k).entries
  keys_nodup := by
    refine List.nodup_cons.mpr ⟨fun h => ?_, (x.erase k).keys_nodup⟩
    obtain ⟨p, hp, hk⟩ := List.mem_map.mp h
    exact of_decide_eq_true (List.mem_filter.mp hp).2 hk

/-! ## Conditional change -/

/-- What becomes of a mapping that was looked at. -/
inductive Verdict where
  | keep
  | replace (id : SlotId)
  | remove
  deriving DecidableEq, Repr

/-- Changes the mapping of `k`, if there is one, as `f` says of its handle. -/
def update (x : Index κ) (k : κ) (f : SlotId → Verdict) : Index κ :=
  match x.get? k with
  | none => x
  | some id =>
    match f id with
    | .keep => x
    | .replace id => x.insert k id
    | .remove => x.erase k

/-- A verdict given only on one handle, or on all. -/
structure Rule where
  only : Option SlotId
  verdict : Verdict
  deriving DecidableEq, Repr

def Rule.judge (r : Rule) (held : SlotId) : Verdict :=
  match r.only with
  | none => r.verdict
  | some id => if held = id then r.verdict else .keep

end Index

end Recency

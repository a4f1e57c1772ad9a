import Recency.Index.Basic
/-
  Recency.Index.Lemmas — an index seen through `get?`.

  Each operation changes what one key is mapped to and nothing else, and `get?` finds a
  mapping exactly when it is among the entries.
-/

namespace Recency.Index

variable {κ : Type} [DecidableEq κ]

theorem find?_eq_some_iff {l : List (κ × SlotId)} (h : (l.map Prod.fst).Nodup) (p : κ × SlotId) :
    l.find? (·.1 = p.1) = some p ↔ p ∈ l := by
  induction l with
  | nil => simp
  | cons q l ih =>
    obtain ⟨hq, hl⟩ := List.nodup_cons.mp h
    by_cases e : q.1 = p.1
    · have hp : p ∉ l := fun hp => hq (e ▸ List.mem_map_of_mem hp)
      simp [e, hp, eq_comm]
    · have hn : p ≠ q := fun h => e (h ▸ rfl)
      simp [e, hn, ih hl]

theorem get?_eq_some_iff {x : Index κ} {k : κ} {id : SlotId} : x.get? k = some id ↔ (k, id) ∈ x.entries := by
  rw [get?, ← find?_eq_some_iff x.keys_nodup, Option.map_eq_some_iff]
  constructor
  · rintro ⟨⟨k', id'⟩, h, rfl⟩
    have : k' = k := by simpa using List.find?_some h
    exact this ▸ h
  · exact fun h => ⟨_, h, rfl⟩

theorem get?_empty (k : κ) : (empty : Index κ).get? k = none := rfl

@[simp] theorem get?_erase (x : Index κ) (k k' : κ) :
    (x.erase k).get? k' = if k' = k then none else x.get? k' := by
  ext id
  rw [get?_eq_some_iff]
  by_cases e : k' = k
  · simp [erase, e]
  · simp [erase, e, get?_eq_some_iff]

@[simp] theorem get?_insert (x : Index κ) (k k' : κ) (id : SlotId) :
    (x.insert k id).get? k' = if k' = k then some id else x.get? k' := by
  by_cases e : k' = k
  · simp [get?, insert, e]
  · have h := x.get?_erase k k'
    simp only [e, if_false] at h ⊢
    rw [← h]
    simp [get?, insert, Ne.symm e]

theorem get?_update (x : Index κ) (k k' : κ) (f : SlotId → Verdict) :
    (x.update k f).get? k' =
      if k' = k then
        (x.get? k).bind fun id =>
          match f id with
          | .keep => some id
          | .replace id => some id
          | .remove => none
      else x.get? k' := by
  unfold update
  cases h : x.get? k with
  | none => by_cases e : k' = k <;> simp [e, h]
  | some id => cases hf : f id <;> by_cases e : k' = k <;> simp [e, h, hf]

end Recency.Index

import Recency.Proofs.Arena.Stock
/-
  Recency.Proofs.Arena.Counts — what an operation does to the numbers of slots, of values and
  of slots that there is room for.

  `Tidy.apply_counts` says it once, for every operation and allocator: an operation leaves
  the slots and the room alone, or makes room, or adds a slot and a value when all slots are
  filled, or clears. What is said elsewhere of room and of slots follows by cases on this.
-/

namespace Recency.Arena

variable {α : Type} {a b : Arena α} {free : List UInt32} {mem : Allocator}

def Op.clears : Op α → Bool
  | .clear => true
  | _ => false

inductive Counts (mem : Allocator) (op : Op α) (a b : Arena α) : Prop
  | same : b.slots.size = a.slots.size → b.capacity = a.capacity → Counts mem op a b
  | roomier : mem = .grants → b.slots.size = a.slots.size → a.slots.size ≤ b.capacity → Counts mem op a b
  | added : a.live = a.slots.size → b.slots.size = a.slots.size + 1 → b.live = a.live + 1 →
      b.slots.size ≤ b.capacity → (mem = .refuses → b.capacity = a.capacity) → Counts mem op a b
  | cleared : op.clears = true → b.slots.size = 0 → b.live = 0 → b.capacity = a.capacity → Counts mem op a b

/-- No operation makes more room when the allocator refuses. -/
theorem Counts.capacity_eq {op : Op α} (h : Counts .refuses op a b) : b.capacity = a.capacity := by
  cases h with
  | same _ hcap => exact hcap
  | roomier hgrants _ _ => cases hgrants
  | added _ _ _ _ hcap => exact hcap rfl
  | cleared _ _ _ hcap => exact hcap

/-! ## Reserving -/

/-- An allocator that refuses gives nothing beyond the room there is. -/
theorem reserve_refuses (a : Arena α) (n : Nat) :
    a.reserve .refuses n =
      if maxSlots < a.slots.size + n then .error .capacityOverflow
      else if a.slots.size + n ≤ a.capacity then .ok a
      else .error (.allocFailed (a.slots.size + n)) := rfl

/-- What is reserved is there, and comes from the allocator or was there before. -/
theorem reserve_room {n : Nat} (h : a.reserve mem n = .ok b) :
    a.slots.size + n ≤ b.capacity ∧ (mem = .grants ∨ b = a) := by
  simp only [reserve] at h
  split at h
  · cases h
  split at h
  · rename_i hle
    cases h
    exact ⟨hle, .inr rfl⟩
  · cases mem with
    | refuses => cases h
    | grants =>
      cases h
      refine ⟨?_, .inl rfl⟩
      show _ ≤ max (max (2 * a.capacity) (a.slots.size + n)) 4
      omega

/-! ## One operation -/

namespace Tidy

variable (h : a.Tidy free)
include h

theorem live_le : a.live ≤ a.slots.size := by
  have := h.count
  omega

/-- An insertion fails just when all slots are filled and there is no room for one more. -/
theorem insert_fails_iff {v : α} {e : ArenaError} :
    a.insert mem v = .error e ↔ a.live = a.slots.size ∧ a.reserve mem 1 = .error e := by
  have hcount := h.count
  rcases insert_cases h mem v with ⟨i, rest, s, rfl, -, -, -, he⟩ | ⟨rfl, -, he⟩
  · rw [he]
    constructor
    · intro hok
      cases hok
    · rintro ⟨hfull, -⟩
      rw [List.length_cons] at hcount
      omega
  · have hfull : a.live = a.slots.size := hcount
    rw [he, append, and_iff_right hfull]
    cases a.reserve mem 1 <;> simp [Except.map]

theorem insert_counts {v : α} {id : SlotId} (hi : a.insert mem v = .ok (id, b)) : Counts mem (.insert v) a b := by
  have hle := h.live_le
  have hlive := (h.insert hi).2
  have hroom := insert_room h mem v
  rw [hi] at hroom
  by_cases hlt : a.live < a.slots.size
  · simp only [if_pos hlt, Except.map, Except.ok.injEq, Prod.mk.injEq] at hroom
    exact .same hroom.1 hroom.2
  · rw [if_neg hlt] at hroom
    cases hr : a.reserve mem 1 with
    | error e => rw [hr] at hroom; cases hroom
    | ok c =>
      obtain ⟨hfits, hfrom⟩ := reserve_room hr
      simp only [hr, Except.map, Except.ok.injEq, Prod.mk.injEq] at hroom
      refine .added (by omega) hroom.1 hlive (by omega) ?_
      rintro rfl
      rcases hfrom with hfrom | rfl
      · cases hfrom
      · exact hroom.2

theorem apply_counts (mem : Allocator) (op : Op α) : Counts mem op a (Arena.apply mem op a).2 := by
  cases op with
  | insert v =>
    cases hi : a.insert mem v with
    | error e =>
      simp only [Arena.apply, hi]
      exact .same rfl rfl
    | ok p =>
      simp only [Arena.apply, hi]
      exact h.insert_counts hi
  | remove id =>
    cases hr : a.remove id with
    | none =>
      simp only [Arena.apply, hr]
      exact .same rfl rfl
    | some p =>
      obtain ⟨w, -, rfl⟩ := Option.map_eq_some_iff.mp hr
      simp only [Arena.apply, hr]
      exact .same (by simp) rfl
  | set id w =>
    cases hg : a.get? id with
    | none =>
      simp only [Arena.apply, Arena.set, hg]
      exact .same rfl rfl
    | some v =>
      simp only [Arena.apply, Arena.set, hg]
      exact .same (by simp) rfl
  | reserve n =>
    cases hr : a.reserve mem n with
    | error e =>
      simp only [Arena.apply, hr]
      exact .same rfl rfl
    | ok b =>
      obtain ⟨hfits, hfrom⟩ := reserve_room hr
      simp only [Arena.apply, hr]
      rcases hfrom with hfrom | rfl
      · have hsize : b.slots.size = a.slots.size := by rw [(reserve_ok hr).1]
        exact .roomier hfrom hsize (by omega)
      · exact .same rfl rfl
  | clear => exact .cleared rfl rfl rfl rfl
  | link i prev next => exact .same (by simp [Arena.apply, Arena.modifySlot]) rfl

end Tidy

end Recency.Arena

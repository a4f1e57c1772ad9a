import Recency.Proofs.Arena.Counts
/-
  Recency.Proofs.Arena.Reserved — room that was reserved is there when no more is to be had.

  An insertion looks at the free stack and at the number of slots, never at the count of
  values. Still it is that count which decides while the allocator refuses: each slot is
  filled or on the stack, and there are no more slots than room (`Roomy`), so an insertion is
  granted as long as there are fewer values than room, and no longer (`Roomy.insert_granted`,
  `Roomy.insert_refused`).

  How much room comes with a growth is for the allocator to say. `Reached` allows any room
  that holds the slots there are; of a reservation it is known that it holds those asked for.
-/

namespace Recency.Arena

variable {α : Type}

/-- The arenas that operations lead to, whatever room comes with each growth. -/
inductive Reached : Arena α → Prop
  | start (capacity : Nat) : Reached (withCapacity capacity)
  | step {a : Arena α} (mem : Allocator) (op : Op α) : Reached a → Reached (apply mem op a).2
  | room {a : Arena α} (capacity : Nat) : Reached a → a.slots.size ≤ capacity → Reached { a with capacity }

/-- The operations that put `vs` in, one by one, while the allocator refuses. -/
def insertions (vs : List α) : List (Allocator × Op α) := vs.map fun v => (.refuses, .insert v)

variable {a b : Arena α} {free : List UInt32}

/-! ## Room -/

/-- Each slot is filled or stacked, and there is room for all of them. -/
structure Roomy (a : Arena α) : Prop where
  tidy : ∃ free, a.Tidy free
  fits : a.slots.size ≤ a.capacity

theorem Roomy.apply (h : a.Roomy) (mem : Allocator) (op : Op α) : (Arena.apply mem op a).2.Roomy := by
  obtain ⟨free, ht⟩ := h.tidy
  obtain ⟨free', ht', -, -⟩ := ht.apply mem op
  have hfits := h.fits
  refine ⟨⟨free', ht'⟩, ?_⟩
  cases ht.apply_counts mem op with
  | same hsize hcap => omega
  | roomier _ hsize hle => omega
  | added _ _ _ hle _ => exact hle
  | cleared _ hsize _ _ => omega

theorem Reached.roomy (h : Reached a) : a.Roomy := by
  induction h with
  | start capacity => exact ⟨⟨[], tidy_withCapacity capacity⟩, Nat.zero_le _⟩
  | step mem op _ ih => exact ih.apply mem op
  | room capacity _ hfits ih =>
    obtain ⟨free, ht⟩ := ih.tidy
    exact ⟨⟨free, ht.stack, ht.nodup, ht.complete, ht.count, ht.bounded⟩, hfits⟩

/-! ## While the allocator refuses -/

namespace Roomy

theorem insert_granted (h : a.Roomy) (hlt : a.live < min a.capacity maxSlots) (v : α) :
    ∃ id b, a.insert .refuses v = .ok (id, b) ∧ b.live = a.live + 1 ∧ b.capacity = a.capacity := by
  obtain ⟨free, ht⟩ := h.tidy
  cases hi : a.insert .refuses v with
  | error e =>
    -- all slots are filled, so there is room for one more
    obtain ⟨hfull, hr⟩ := ht.insert_fails_iff.mp hi
    rw [reserve_refuses, if_neg (by omega), if_pos (by omega)] at hr
    cases hr
  | ok p =>
    obtain ⟨id, b⟩ := p
    exact ⟨id, b, rfl, (ht.insert hi).2, (ht.insert_counts hi).capacity_eq⟩

theorem insert_refused (h : a.Roomy) (hle : min a.capacity maxSlots ≤ a.live) (v : α) :
    a.insert .refuses v =
      .error (if a.slots.size = maxSlots then .capacityOverflow else .allocFailed (a.slots.size + 1)) := by
  obtain ⟨free, ht⟩ := h.tidy
  have hlive := ht.live_le
  have hmax := ht.bounded
  have hfits := h.fits
  refine ht.insert_fails_iff.mpr ⟨by omega, ?_⟩
  rw [reserve_refuses]
  by_cases hsize : a.slots.size = maxSlots
  · rw [if_pos hsize, if_pos (by omega)]
  · rw [if_neg hsize, if_neg (by omega), if_neg (by omega)]

theorem apply_capacity (h : a.Roomy) (op : Op α) : (Arena.apply .refuses op a).2.capacity = a.capacity := by
  obtain ⟨free, ht⟩ := h.tidy
  exact (ht.apply_counts .refuses op).capacity_eq

/-- The room stays what it was, whatever is done. -/
theorem applyAll (h : a.Roomy) (later : List (Op α)) :
    (Arena.applyAll (later.map (.refuses, ·)) a).2.Roomy ∧
      (Arena.applyAll (later.map (.refuses, ·)) a).2.capacity = a.capacity := by
  induction later generalizing a with
  | nil => exact ⟨h, rfl⟩
  | cons op later ih =>
    obtain ⟨hlast, hcap⟩ := ih (h.apply .refuses op)
    exact ⟨hlast, hcap.trans (h.apply_capacity op)⟩

/-- An insertion is granted just when there are fewer values than room, and otherwise changes nothing. -/
theorem apply_insert (h : a.Roomy) (hmax : a.capacity ≤ maxSlots) (v : α) :
    ((∃ id, (Arena.apply .refuses (.insert v) a).1 = .inserted id) ↔ a.live < a.capacity) ∧
      (a.capacity ≤ a.live → Arena.apply .refuses (.insert v) a =
        (.refused (if a.slots.size = maxSlots then .capacityOverflow else .allocFailed (a.slots.size + 1)), a)) := by
  have hfull : a.capacity ≤ a.live → Arena.apply .refuses (.insert v) a =
      (.refused (if a.slots.size = maxSlots then .capacityOverflow else .allocFailed (a.slots.size + 1)), a) := by
    intro hle
    simp only [Arena.apply, h.insert_refused (by omega) v]
  refine ⟨⟨?_, ?_⟩, hfull⟩
  · rintro ⟨id, hid⟩
    refine Nat.lt_of_not_le fun hle => ?_
    rw [hfull hle] at hid
    cases hid
  · intro hlt
    obtain ⟨id, b, hi, -⟩ := h.insert_granted (by omega) v
    exact ⟨id, by simp only [Arena.apply, hi]⟩

/-- As many values as there is room for go in. -/
theorem insertions_granted (h : a.Roomy) (vs : List α) (hvs : a.live + vs.length ≤ min a.capacity maxSlots) :
    ∀ r ∈ (Arena.applyAll (insertions vs) a).1, ∃ id, r = .inserted id := by
  induction vs generalizing a with
  | nil =>
    intro r hr
    cases hr
  | cons v vs ih =>
    rw [List.length_cons] at hvs
    obtain ⟨id, b, hi, hlive, hcap⟩ := h.insert_granted (by omega) v
    have happly : Arena.apply .refuses (.insert v) a = (.inserted id, b) := by simp only [Arena.apply, hi]
    have hb : b.Roomy := by
      have := h.apply .refuses (.insert v)
      rwa [happly] at this
    have hrest := ih hb (by omega)
    intro r hr
    rw [show insertions (v :: vs) = (.refuses, .insert v) :: insertions vs from rfl, Arena.applyAll, happly] at hr
    rcases List.mem_cons.mp hr with rfl | hr
    · exact ⟨id, rfl⟩
    · exact hrest r hr

end Roomy

/-! ## What was reserved -/

theorem Reached.later (h : Reached a) (ops : List (Allocator × Op α)) : Reached (applyAll ops a).2 := by
  induction ops generalizing a with
  | nil => exact h
  | cons p ops ih => exact ih (.step p.1 p.2 h)

/-- While the allocator refuses, whatever is done, the room stays what it was, and an insertion
    is granted just when there are fewer values than room; one that is not changes nothing. So
    after a reservation, whatever room it came with, there is a place for each free slot and for
    each slot asked for; after a clear there are as many as there is room for. A reservation that
    is refused changes nothing. -/
theorem Reached.usable_when_refused (h : Reached a) :
    (a.capacity ≤ maxSlots → ∀ later : List (Op α),
      let b := (applyAll (later.map (.refuses, ·)) a).2
      b.capacity = a.capacity ∧ ∀ v,
        ((∃ id, (apply .refuses (.insert v) b).1 = .inserted id) ↔ b.live < b.capacity) ∧
        (b.capacity ≤ b.live → apply .refuses (.insert v) b =
          (.refused (if b.slots.size = maxSlots then .capacityOverflow else .allocFailed (b.slots.size + 1)), b))) ∧
    (∀ mem k b, a.reserve mem k = .ok b → a.slots.size + k ≤ b.capacity ∧
      ∀ room, a.slots.size + k ≤ room → ∀ vs : List α, vs.length ≤ a.freeStack.length + k →
        ∀ r ∈ (applyAll (insertions vs) { b with capacity := room }).1, ∃ id, r = .inserted id) ∧
    (a.capacity ≤ maxSlots → ∀ vs : List α, vs.length ≤ a.capacity →
      ∀ r ∈ (applyAll (insertions vs) a.clear).1, ∃ id, r = .inserted id) ∧
    ∀ mem k e, (apply mem (.reserve k) a).1 = .refused e → (apply mem (.reserve k) a).2 = a := by
  have ha := h.roomy
  refine ⟨?_, ?_, ?_, ?_⟩
  · intro hmax later b
    obtain ⟨hb, hcap⟩ := ha.applyAll later
    exact ⟨hcap, fun v => hb.apply_insert (Nat.le_trans (Nat.le_of_eq hcap) hmax) v⟩
  · intro mem k b hr
    refine ⟨(reserve_room hr).1, fun room hroom vs hvs => ?_⟩
    obtain ⟨hsame, hmax⟩ := reserve_ok hr
    obtain ⟨free, ht⟩ := ha.tidy
    have hcount := ht.count
    rw [ht.freeStack_eq] at hvs
    have hb : { b with capacity := room } = { a with capacity := room } := by rw [hsame]
    rw [hb]
    refine (h.room room (by omega)).roomy.insertions_granted vs ?_
    show a.live + vs.length ≤ min room maxSlots
    omega
  · intro hmax vs hvs
    refine (ha.apply .refuses .clear).insertions_granted vs ?_
    show 0 + vs.length ≤ min a.capacity maxSlots
    omega
  · intro mem k e he
    obtain ⟨free, ht⟩ := ha.tidy
    obtain ⟨-, -, -, hsame⟩ := ht.apply mem (.reserve k)
    exact hsame (by rw [he]; rfl)

/-- Three values made the arena grow to room for four, and one was removed. Of the two places that
    are left one is a free slot, and a handle that has gone stale gives no third. -/
theorem Reached.usable_when_refused_grown :
    let a : Arena Char := (applyAll
      [(.grants, .insert 'a'), (.grants, .insert 'b'), (.grants, .insert 'c'), (.refuses, .remove ⟨1, 0⟩)]
      (withCapacity 2)).2
    let later : List (Op Char) := [.insert 'd', .remove ⟨1, 0⟩, .insert 'e', .remove ⟨1, 0⟩]
    let b := (applyAll (later.map (.refuses, ·)) a).2
    Reached a ∧ a.capacity = 4 ∧ a.capacity ≤ maxSlots ∧ a.freeStack = [1] ∧ b.capacity = 4 ∧ b.capacity ≤ b.live ∧
      apply .refuses (.insert 'f') b = (.refused (.allocFailed 5), b) ∧
      (a.reserve .refuses 1 = .ok a ∧ a.slots.size + 1 ≤ 4 ∧
        ∀ r ∈ (applyAll (insertions ['d', 'e']) { a with capacity := 4 }).1, ∃ id, r = .inserted id) ∧
      (∀ r ∈ (applyAll (insertions ['d', 'e', 'f', 'g']) a.clear).1, ∃ id, r = .inserted id) ∧
      (apply .refuses (.reserve 2) a).1 = .refused (.allocFailed 5) ∧ (apply .refuses (.reserve 2) a).2 = a := by
  intro a later b
  have ha : Reached a := (Reached.start 2).later _
  have hcap : a.capacity = 4 := by decide
  have hmax : a.capacity ≤ maxSlots := by decide
  have hfree : a.freeStack = [1] := by decide
  have hfull : b.capacity ≤ b.live := by decide
  have hsize : b.slots.size = 4 := by decide
  have hreserve : a.reserve .refuses 1 = .ok a := by decide
  have hrefused : (apply .refuses (.reserve 2) a).1 = .refused (.allocFailed 5) := by decide
  obtain ⟨hlater, hreserved, hcleared, hsame⟩ := ha.usable_when_refused
  obtain ⟨hb, hinsert⟩ := hlater hmax later
  have hlast : apply .refuses (.insert 'f') b = (.refused (.allocFailed 5), b) := by
    refine ((hinsert 'f').2 hfull).trans ?_
    rw [hsize]
    rfl
  exact ⟨ha, hcap, hmax, hfree, hb.trans hcap, hfull, hlast,
    ⟨hreserve, by decide, (hreserved .refuses 1 a hreserve).2 4 (by decide) ['d', 'e'] (by decide)⟩,
    hcleared hmax ['d', 'e', 'f', 'g'] (by decide), hrefused, hsame .refuses 2 _ hrefused⟩

end Recency.Arena

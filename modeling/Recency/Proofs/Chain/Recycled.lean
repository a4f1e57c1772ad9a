import Mathlib.Order.Bounds.Basic
import Recency.Proofs.Arena.Counts
import Recency.Proofs.Chain.Sequence
/-
  Recency.Proofs.Chain.Recycled — slots are used again before there are more of them.

  There are as many slots as there were values at the fullest moment since the last clear.
  One operation shows why (`Grown`): it leaves the number of slots alone, or it adds a slot
  and a value together, and then all slots had been filled. A slot lost from the free stack,
  or a stack dropped at an insertion, would make this number run ahead of the values, which
  no value that is read would ever tell.

  The moments are the parts of a history up to somewhere after its last clear (`sinceReset`).
-/

namespace Recency

/-! ## Moments -/

/-- The beginnings of a history that what comes after them does not reset. -/
def sinceReset {β : Type} (resets : β → Bool) (ops : List β) : Set (List β) :=
  {earlier | ∃ later, ops = earlier ++ later ∧ ∀ op ∈ later, resets op = false}

section Moments

variable {β : Type} {resets : β → Bool} {ops : List β} {op : β}

theorem sinceReset_nil : sinceReset resets [] = {[]} := by
  ext earlier
  constructor
  · rintro ⟨later, he, -⟩
    exact (List.append_eq_nil_iff.mp he.symm).1
  · rintro rfl
    exact ⟨[], rfl, fun op hop => absurd hop List.not_mem_nil⟩

/-- The whole history is a moment of its own, and the moments before an operation that resets
    count no more. -/
theorem sinceReset_concat :
    sinceReset resets (ops ++ [op]) =
      if resets op then {ops ++ [op]} else insert (ops ++ [op]) (sinceReset resets ops) := by
  ext earlier
  have hlast : earlier ∈ sinceReset resets (ops ++ [op]) ↔
      earlier = ops ++ [op] ∨ resets op = false ∧ earlier ∈ sinceReset resets ops := by
    constructor
    · rintro ⟨later, he, hlater⟩
      rcases List.eq_nil_or_concat later with rfl | ⟨later, op', rfl⟩
      · exact .inl (by simpa using he.symm)
      · rw [List.concat_eq_append, ← List.append_assoc] at he
        obtain ⟨rfl, hop⟩ := List.append_inj' he rfl
        cases hop
        rw [List.concat_eq_append] at hlater
        exact .inr ⟨hlater op (by simp), later, rfl, fun o ho => hlater o (by simp [ho])⟩
    · rintro (rfl | ⟨hop, later, rfl, hlater⟩)
      · exact ⟨[], by simp, fun o ho => absurd ho List.not_mem_nil⟩
      · refine ⟨later ++ [op], by simp, fun o ho => ?_⟩
        rcases List.mem_append.mp ho with ho | ho
        · exact hlater o ho
        · rwa [List.mem_singleton.mp ho]
  rw [hlast]
  by_cases hop : resets op = true
  · simp [hop]
  · simp [hop]

/-- A size that a reset brings down to what is held, and that nothing else brings further up
    than that, is the most that was held since. -/
theorem isGreatest_held (size held : List β → Nat) (hnil : size [] = held [])
    (hstep : ∀ ops op, size (ops ++ [op]) =
      if resets op then held (ops ++ [op]) else max (size ops) (held (ops ++ [op]))) (ops : List β) :
    IsGreatest (held '' sinceReset resets ops) (size ops) := by
  -- a moment more is a moment at the end
  induction ops using List.reverseRecOn with
  | nil =>
    rw [sinceReset_nil, Set.image_singleton, hnil]
    exact isGreatest_singleton
  | append_singleton ops op ih =>
    rw [sinceReset_concat, hstep]
    by_cases hop : resets op = true
    · rw [if_pos hop, if_pos hop, Set.image_singleton]
      exact isGreatest_singleton
    · rw [if_neg hop, if_neg hop, Set.image_insert_eq, max_comm]
      exact ih.insert _

end Moments

/-- An operation that clears nothing leaves `size` slots for `held` values as many as they were,
    or adds one of each when all slots are filled. -/
def Grown (size held size' held' : Nat) : Prop :=
  size' = size ∨ held = size ∧ size' = size + 1 ∧ held' = held + 1

theorem Grown.eq_max {size held size' held' : Nat} (h : Grown size held size' held') (hle : held' ≤ size') :
    size' = max size held' := by
  rcases h with h | ⟨h, h', h''⟩ <;> omega

variable {α : Type}

/-! ## Arenas -/

namespace Arena

variable {a : Arena α} {free : List UInt32}

/-- With as many values as slots, no slot is free. -/
theorem Tidy.all_filled (h : a.Tidy free) (hfull : a.live = a.slots.size) : ∀ s ∈ a.slots, s.value.isSome = true := by
  intro s hs
  obtain ⟨n, hn, hs⟩ := Array.mem_iff_getElem.mp hs
  have hidx : (UInt32.ofNat n).toNat = n :=
    UInt32.toNat_ofNat_of_lt' (Nat.lt_of_lt_of_le hn (Nat.le_trans h.bounded (by decide)))
  have hcount := h.count
  cases hv : s.value with
  | some v => rfl
  | none =>
    have hfree := h.complete (UInt32.ofNat n) s (by rw [hidx, Array.getElem?_eq_getElem hn, hs]) hv
    have := List.length_pos_of_mem hfree
    omega

theorem Tidy.apply_grown (h : a.Tidy free) (mem : Allocator) {op : Op α} (hop : op.clears = false) :
    Grown a.slots.size a.live (Arena.apply mem op a).2.slots.size (Arena.apply mem op a).2.live := by
  cases h.apply_counts mem op with
  | same hsize _ => exact .inl hsize
  | roomier _ hsize _ => exact .inl hsize
  | added hfull hsize hlive _ _ => exact .inr ⟨hfull, hsize, hlive⟩
  | cleared hclears _ _ _ =>
    rw [hop] at hclears
    cases hclears

/-- The slots are at least as many as the values, and no more than they have to be. -/
theorem Tidy.apply_size (h : a.Tidy free) (mem : Allocator) (op : Op α) :
    (Arena.apply mem op a).2.slots.size =
      if op.clears then (Arena.apply mem op a).2.live else max a.slots.size (Arena.apply mem op a).2.live := by
  cases hop : op.clears with
  | true =>
    cases op with
    | clear => rfl
    | _ => cases hop
  | false =>
    obtain ⟨free', h', -, -⟩ := h.apply mem op
    exact (h.apply_grown mem hop).eq_max h'.live_le

/-- A slot is added only when all of them are filled. -/
theorem Tidy.filled_of_added (h : a.Tidy free) {mem : Allocator} {op : Op α}
    (hadded : a.slots.size < (Arena.apply mem op a).2.slots.size) : ∀ s ∈ a.slots, s.value.isSome = true := by
  cases h.apply_counts mem op with
  | same hsize _ => omega
  | roomier _ hsize _ => omega
  | added hfull _ _ _ _ => exact h.all_filled hfull
  | cleared _ hsize _ _ => omega

theorem applyAll_concat (ops : List (Allocator × Op α)) (p : Allocator × Op α) (a : Arena α) :
    (applyAll (ops ++ [p]) a).2 = (apply p.1 p.2 (applyAll ops a).2).2 := by
  induction ops generalizing a with
  | nil => rfl
  | cons q ops ih => exact ih (apply q.1 q.2 a).2

end Arena

/-! ## Chains -/

namespace Chain

def Op.clears : Op α → Bool
  | .clear => true
  | _ => false

variable {c : Chain α}

theorem Kept.length_le (h : c.Kept) : c.length ≤ c.arena.slots.size := by
  rw [h.wellFormed.length_eq]
  exact h.wellFormed.length_le.1

theorem Kept.pushFront_grown {d : Chain α} {id : SlotId} {mem : Allocator} {v : α} (h : c.Kept)
    (hp : c.pushFront mem v = .ok (id, d)) : Grown c.arena.slots.size c.length d.arena.slots.size d.length := by
  obtain ⟨hd, hent⟩ := h.wellFormed.pushFront hp
  have hle := h.length_le
  have hlength : d.length = c.length + 1 := by
    rw [hd.length_eq, hent, List.length_cons, h.wellFormed.length_eq]
  have hroom := h.wellFormed.pushFront_room mem v
  rw [hp, ← h.wellFormed.length_eq] at hroom
  by_cases hlt : c.length < c.arena.slots.size
  · simp only [if_pos hlt, Except.map, Except.ok.injEq, Arena.room, Prod.mk.injEq] at hroom
    exact .inl hroom.1
  · rw [if_neg hlt] at hroom
    cases hr : c.arena.reserve mem 1 with
    | error e => rw [hr] at hroom; cases hroom
    | ok b =>
      simp only [hr, Except.map, Except.ok.injEq, Arena.room, Prod.mk.injEq] at hroom
      exact .inr ⟨by omega, hroom.1, hlength⟩

/-- Removing a node leaves its slot. -/
theorem remove_size {d : Chain α} {id : SlotId} {v : α} (hr : c.remove id = some (v, d)) :
    d.arena.slots.size = c.arena.slots.size := by
  simp only [remove] at hr
  split at hr
  · obtain ⟨⟨w, b⟩, hb, he⟩ := Option.map_eq_some_iff.mp hr
    cases he
    obtain ⟨w, -, he⟩ := Option.map_eq_some_iff.mp hb
    cases he
    rw [Array.size_modify, (relinked_unlink c id.index).size]
  · cases hr

theorem Kept.apply_grown (h : c.Kept) (mem : Allocator) {op : Op α} (hop : op.clears = false) :
    Grown c.arena.slots.size c.length (Chain.apply mem op c).2.arena.slots.size (Chain.apply mem op c).2.length := by
  cases op with
  | pushFront v =>
    cases hp : c.pushFront mem v with
    | error e =>
      simp only [Chain.apply, hp]
      exact .inl rfl
    | ok p =>
      simp only [Chain.apply, hp]
      exact h.pushFront_grown hp
  | moveToFront id =>
    refine .inl ?_
    simp only [Chain.apply, Chain.moveToFront]
    split
    · split
      · rfl
      · rw [(relinked_attachFront (c.unlink id.index) id.index).size, (relinked_unlink c id.index).size]
    · rfl
  | popBack =>
    cases hp : c.popBack with
    | none =>
      simp only [Chain.apply, hp]
      exact .inl rfl
    | some p =>
      obtain ⟨id, -, hmap⟩ := Option.bind_eq_some_iff.mp hp
      obtain ⟨⟨v, d⟩, hr, rfl⟩ := Option.map_eq_some_iff.mp hmap
      simp only [Chain.apply, hp]
      exact .inl (remove_size hr)
  | remove id =>
    cases hr : c.remove id with
    | none =>
      simp only [Chain.apply, hr]
      exact .inl rfl
    | some p =>
      simp only [Chain.apply, hr]
      exact .inl (remove_size hr)
  | get id => exact .inl rfl
  | set id w =>
    refine .inl ?_
    cases hg : c.arena.get? id with
    | none => simp only [Chain.apply, Chain.set, Arena.set, hg]
    | some v => simp [Chain.apply, Chain.set, Arena.set, hg]
  | reserve n =>
    cases hr : c.arena.reserve mem n with
    | error e =>
      simp only [Chain.apply, Chain.reserve, hr, Except.map]
      exact .inl rfl
    | ok b =>
      simp only [Chain.apply, Chain.reserve, hr, Except.map]
      rw [(Arena.reserve_ok hr).1]
      exact .inl rfl
  | clear => cases hop

theorem Kept.apply_size (h : c.Kept) (mem : Allocator) (op : Op α) :
    (Chain.apply mem op c).2.arena.slots.size =
      if op.clears then (Chain.apply mem op c).2.length
      else max c.arena.slots.size (Chain.apply mem op c).2.length := by
  cases hop : op.clears with
  | true =>
    cases op with
    | clear => rfl
    | _ => cases hop
  | false => exact (h.apply_grown mem hop).eq_max (h.apply mem op).1.length_le

theorem Kept.filled_of_added (h : c.Kept) {mem : Allocator} {op : Op α}
    (hadded : c.arena.slots.size < (Chain.apply mem op c).2.arena.slots.size) :
    ∀ s ∈ c.arena.slots, s.value.isSome = true := by
  cases hop : op.clears with
  | true =>
    cases op with
    | clear => exact absurd hadded (Nat.not_lt_zero _)
    | _ => cases hop
  | false =>
    rcases h.apply_grown mem hop with hsize | ⟨hfull, -, -⟩
    · omega
    · obtain ⟨nodes, hs⟩ := h.wellFormed
      obtain ⟨free, ht⟩ := hs.tidy
      exact ht.all_filled hfull

theorem applyAll_concat (ops : List (Allocator × Op α)) (p : Allocator × Op α) (c : Chain α) :
    applyAll (ops ++ [p]) c = (apply p.1 p.2 (applyAll ops c)).2 := by
  induction ops generalizing c with
  | nil => rfl
  | cons q ops ih => exact ih (apply q.1 q.2 c).2

end Chain

/-! ## No slot is lost -/

/-- After any history there are as many slots as there were values at the fullest moment since
    it began or was last cleared, in an arena and in a chain; and an operation adds a slot only
    when every slot holds a value. -/
theorem slots_recycled (n : Nat) :
    (∀ ops : List (Allocator × Arena.Op α),
      let after (ops : List (Allocator × Arena.Op α)) : Arena α := (Arena.applyAll ops (Arena.withCapacity n)).2
      IsGreatest ((fun earlier => (after earlier).live) '' sinceReset (·.2.clears) ops) (after ops).slots.size ∧
        ∀ mem op, (after ops).slots.size < (Arena.apply mem op (after ops)).2.slots.size →
          ∀ s ∈ (after ops).slots, s.value.isSome = true) ∧
    ∀ ops : List (Allocator × Chain.Op α),
      let after (ops : List (Allocator × Chain.Op α)) : Chain α := Chain.applyAll ops (Chain.withCapacity n)
      IsGreatest ((fun earlier => (after earlier).length) '' sinceReset (·.2.clears) ops)
          (after ops).arena.slots.size ∧
        ∀ mem op, (after ops).arena.slots.size < (Chain.apply mem op (after ops)).2.arena.slots.size →
          ∀ s ∈ (after ops).arena.slots, s.value.isSome = true := by
  refine ⟨fun ops => ?_, fun ops => ?_⟩
  · intro after
    have htidy : ∀ ops, ∃ free, (after ops).Tidy free := fun ops =>
      have ⟨free, h, _⟩ := (Arena.tidy_withCapacity (α := α) n).applyAll ops
      ⟨free, h⟩
    refine ⟨isGreatest_held (fun ops => (after ops).slots.size) _ rfl ?_ ops, ?_⟩
    · intro ops p
      obtain ⟨free, h⟩ := htidy ops
      have hnext : after (ops ++ [p]) = (Arena.apply p.1 p.2 (after ops)).2 := Arena.applyAll_concat ops p _
      simp only [hnext]
      exact h.apply_size p.1 p.2
    · intro mem op hadded
      obtain ⟨free, h⟩ := htidy ops
      exact h.filled_of_added hadded
  · intro after
    have hkept : ∀ ops, (after ops).Kept := fun ops => (Chain.kept_withCapacity n).applyAll ops
    refine ⟨isGreatest_held (fun ops => (after ops).arena.slots.size) _ rfl ?_ ops, ?_⟩
    · intro ops p
      have hnext : after (ops ++ [p]) = (Chain.apply p.1 p.2 (after ops)).2 := Chain.applyAll_concat ops p _
      simp only [hnext]
      exact (hkept ops).apply_size p.1 p.2
    · intro mem op hadded
      exact (hkept ops).filled_of_added hadded

end Recency

import Recency.Arena.Basic
import Mathlib.Data.List.Nodup
/-
  Recency.Proofs.Arena.Slots — what each change of an arena does to its slots.

  The filled slots are seen through `content`, which forgets the links: a handle and a
  value for each filled slot. `Tidy` says that the free slots are those of a stack that
  starts at `freeHead`, each once, and that the count of values is right.

  - `Tidy.insert` / `insert_slot?`: a value goes to a slot that held none, and nothing
    else changes.
  - `Tidy.remove` / `remove_slot?`: a slot is emptied and is the next to be filled.
  - `insert_room`: when an insertion is refused, and how the room grows.
-/

namespace Recency.Arena

variable {α : Type}

/-! ## Slots after a change -/

theorem slot?_eq_some {a : Arena α} {i : UInt32} {s : Slot α} :
    a.slot? i = some s ↔ a.slots[i.toNat]? = some s ∧ s.value.isSome = true := by
  simp [slot?, Option.filter_eq_some_iff]

theorem slot?_congr {a b : Arena α} {i : UInt32} (h : b.slots[i.toNat]? = a.slots[i.toNat]?) :
    b.slot? i = a.slot? i := by
  simp only [slot?, h]

theorem toNat_ne {i j : UInt32} (h : i ≠ j) : i.toNat ≠ j.toNat := fun e => h (UInt32.toNat_inj.mp e)

theorem slots_modifySlot (a : Arena α) (i j : UInt32) (f : Slot α → Slot α) :
    (a.modifySlot i f).slots[j.toNat]? =
      if j = i then a.slots[j.toNat]?.map (fun s => if s.value.isSome then f s else s) else a.slots[j.toNat]? := by
  simp only [modifySlot, Array.getElem?_modify]
  by_cases e : j = i
  · simp [e]
  · rw [if_neg (toNat_ne (Ne.symm e)), if_neg e]

/-- A change of links keeps the value and the generation. -/
def Relinks (f : Slot α → Slot α) : Prop := ∀ s, (f s).value = s.value ∧ (f s).generation = s.generation

theorem slot?_modifySlot (a : Arena α) (i j : UInt32) {f : Slot α → Slot α} (hf : Relinks f) :
    (a.modifySlot i f).slot? j = if j = i then (a.slot? j).map f else a.slot? j := by
  by_cases e : j = i
  · subst e
    simp only [slot?, slots_modifySlot, if_true]
    cases h : a.slots[j.toNat]? with
    | none => rfl
    | some s =>
      have := (hf s).1
      cases hv : s.value <;> simp [Option.filter, this, hv]
  · rw [if_neg e]
    exact slot?_congr (by rw [slots_modifySlot, if_neg e])

theorem slot?_modifySlot_ne (a : Arena α) {i j : UInt32} {f : Slot α → Slot α} (h : j ≠ i) :
    (a.modifySlot i f).slot? j = a.slot? j :=
  slot?_congr (by rw [slots_modifySlot, if_neg h])

/-! ## Contents -/

/-- The handle and the value at `i`, without the links. -/
def content (a : Arena α) (i : UInt32) : Option (SlotId × α) :=
  (a.slot? i).bind fun s => s.value.map (⟨i, s.generation⟩, ·)

theorem content_index {a : Arena α} {i : UInt32} {p : SlotId × α} (h : a.content i = some p) : p.1.index = i := by
  simp only [content, Option.bind_eq_some_iff, Option.map_eq_some_iff] at h
  obtain ⟨s, _, v, _, rfl⟩ := h
  rfl

theorem isSome_content (a : Arena α) (i : UInt32) : (a.content i).isSome = (a.slot? i).isSome := by
  cases h : a.slot? i with
  | none => simp [content, h]
  | some s => simp [content, h, (slot?_eq_some.mp h).2]

theorem get?_eq_some_iff {a : Arena α} {id : SlotId} {v : α} :
    a.get? id = some v ↔ a.content id.index = some (id, v) := by
  obtain ⟨i, g⟩ := id
  simp only [get?, content, slot?]
  cases a.slots[i.toNat]? with
  | none => simp
  | some s =>
    cases hv : s.value <;> by_cases hg : s.generation = g <;> simp [hv, hg, Option.filter]

theorem idAt?_eq (a : Arena α) (i : UInt32) : a.idAt? i = (a.content i).map (·.1) := by
  cases h : a.slot? i with
  | none => simp [idAt?, content, h]
  | some s =>
    obtain ⟨v, hv⟩ := Option.isSome_iff_exists.mp (slot?_eq_some.mp h).2
    simp [idAt?, content, h, hv]

theorem content_congr {a b : Arena α} {i : UInt32} (h : b.slot? i = a.slot? i) : b.content i = a.content i := by
  simp only [content, h]

theorem content_modifySlot (a : Arena α) (i j : UInt32) {f : Slot α → Slot α} (hf : Relinks f) :
    (a.modifySlot i f).content j = a.content j := by
  simp only [content, slot?_modifySlot a i j hf]
  split
  · cases a.slot? j with
    | none => rfl
    | some s => simp [hf s]
  · rfl

/-! ## The free stack -/

/-- The `next` links from `link` pass through the free slots `is`, and end. -/
def Threaded (slots : Array (Slot α)) : Option UInt32 → List UInt32 → Prop
  | link, [] => link = none
  | link, i :: is => link = some i ∧ ∃ s, slots[i.toNat]? = some s ∧ s.value = none ∧ Threaded slots s.next is

/-- The stack depends on the free slots only. -/
theorem Threaded.frame {slots slots' : Array (Slot α)} {link : Option UInt32} {is : List UInt32}
    (h : Threaded slots link is)
    (he : ∀ i ∈ is, ∀ s, slots[i.toNat]? = some s → s.value = none → slots'[i.toNat]? = some s) :
    Threaded slots' link is := by
  induction is generalizing link with
  | nil => exact h
  | cons i is ih =>
    obtain ⟨rfl, s, hs, hv, ht⟩ := h
    exact ⟨rfl, s, he i (by simp) s hs hv, hv, ih ht fun j hj => he j (by simp [hj])⟩

theorem Threaded.free {slots : Array (Slot α)} {link : Option UInt32} {is : List UInt32} (h : Threaded slots link is) :
    ∀ i ∈ is, ∃ s, slots[i.toNat]? = some s ∧ s.value = none := by
  induction is generalizing link with
  | nil => intro i hi; cases hi
  | cons j is ih =>
    obtain ⟨rfl, s, hs, hv, ht⟩ := h
    intro i hi
    rcases List.mem_cons.mp hi with rfl | hi
    · exact ⟨s, hs, hv⟩
    · exact ih ht i hi

theorem follow_threaded {a : Arena α} {link : Option UInt32} {is : List UInt32} (h : Threaded a.slots link is) :
    ∀ fuel, is.length ≤ fuel → a.follow fuel link = is := by
  induction is generalizing link with
  | nil =>
    intro fuel _
    cases h
    cases fuel <;> rfl
  | cons i is ih =>
    obtain ⟨rfl, s, hs, _, ht⟩ := h
    intro fuel hf
    cases fuel with
    | zero => simp at hf
    | succ fuel =>
      have := ih ht fuel (by simpa using hf)
      simp [follow, hs, this]

/-- The free slots are those of `free`, stacked from `freeHead` on. -/
structure Tidy (a : Arena α) (free : List UInt32) : Prop where
  stack : Threaded a.slots a.freeHead free
  nodup : free.Nodup
  complete : ∀ (i : UInt32) s, a.slots[i.toNat]? = some s → s.value = none → i ∈ free
  count : a.live + free.length = a.slots.size
  bounded : a.slots.size ≤ maxSlots

theorem Tidy.freeStack_eq {a : Arena α} {free : List UInt32} (h : a.Tidy free) : a.freeStack = free :=
  follow_threaded h.stack _ (by have := h.count; omega)

/-- A filled slot is one more than the free ones. -/
theorem Tidy.live_pos {a : Arena α} {free : List UInt32} (h : a.Tidy free) {i : UInt32} {s : Slot α}
    (hs : a.slot? i = some s) : 0 < a.live := by
  obtain ⟨hs, hv⟩ := slot?_eq_some.mp hs
  have hi : i ∉ free := by
    intro hi
    obtain ⟨s', hs', hv'⟩ := h.stack.free i hi
    rw [hs] at hs'
    cases hs'
    simp [hv'] at hv
  have hn : ((i :: free).map UInt32.toNat).Nodup :=
    (List.nodup_cons.mpr ⟨hi, h.nodup⟩).map fun _ _ e => UInt32.toNat_inj.mp e
  have hsub : (i :: free).map UInt32.toNat ⊆ List.range a.slots.size := by
    intro n hn
    obtain ⟨j, hj, rfl⟩ := List.mem_map.mp hn
    rw [List.mem_range]
    rcases List.mem_cons.mp hj with rfl | hj
    · exact (Array.getElem?_eq_some_iff.mp hs).1
    · obtain ⟨s', hs', _⟩ := h.stack.free j hj
      exact (Array.getElem?_eq_some_iff.mp hs').1
  have hle := hn.length_le_of_subset hsub
  have hc := h.count
  simp only [List.length_map, List.length_cons, List.length_range] at hle
  omega

theorem tidy_withCapacity (n : Nat) : (withCapacity n : Arena α).Tidy [] where
  stack := rfl
  nodup := List.nodup_nil
  complete := by intro i s hs; simp [withCapacity] at hs
  count := rfl
  bounded := Nat.zero_le _

theorem tidy_clear (a : Arena α) : a.clear.Tidy [] where
  stack := rfl
  nodup := List.nodup_nil
  complete := by intro i s hs; simp [clear] at hs
  count := rfl
  bounded := Nat.zero_le _

/-- A change of filled slots that leaves them filled. -/
theorem Tidy.of_slots {a b : Arena α} {free : List UInt32} (h : a.Tidy free) (hf : b.freeHead = a.freeHead)
    (hl : b.live = a.live) (hs : b.slots.size = a.slots.size)
    (he : ∀ (i : UInt32) s, s.value = none → (b.slots[i.toNat]? = some s ↔ a.slots[i.toNat]? = some s)) :
    b.Tidy free where
  stack := by
    rw [hf]
    exact h.stack.frame fun i _ s hs hv => (he i s hv).mpr hs
  nodup := h.nodup
  complete := fun i s hs hv => h.complete i s ((he i s hv).mp hs) hv
  count := by rw [hl, hs]; exact h.count
  bounded := by rw [hs]; exact h.bounded

theorem Tidy.modifySlot {a : Arena α} {free : List UInt32} (h : a.Tidy free) (i : UInt32) {f : Slot α → Slot α}
    (hf : Relinks f) : (a.modifySlot i f).Tidy free := by
  refine h.of_slots rfl rfl (by simp [Arena.modifySlot]) fun j s hv => ?_
  rw [slots_modifySlot]
  split
  · cases hs : a.slots[j.toNat]? with
    | none => simp
    | some t =>
      cases ht : t.value with
      | none => simp [ht]
      | some v =>
        have h1 : f t ≠ s := fun e => by have := (hf t).1; rw [e, hv, ht] at this; cases this
        have h2 : t ≠ s := fun e => by rw [e, hv] at ht; cases ht
        simp [ht, h1, h2]
  · rfl

/-! ## Setting a value -/

theorem set_eq {a : Arena α} {id : SlotId} {v : α} (h : a.content id.index = some (id, v)) (w : α) :
    a.set id w =
      (some v, { a with slots := a.slots.modify id.index.toNat fun s => { s with value := some w } }) := by
  simp [set, get?_eq_some_iff.mpr h]

theorem set_slots {a : Arena α} {id : SlotId} {v : α} (h : a.content id.index = some (id, v)) (w : α) (j : UInt32) :
    (a.set id w).2.slot? j = if j = id.index then (a.slot? j).map ({ · with value := some w }) else a.slot? j := by
  rw [set_eq h]
  by_cases e : j = id.index
  · subst e
    have hs : (a.slot? id.index).isSome = true := by rw [← isSome_content, h]; rfl
    obtain ⟨s, hs⟩ := Option.isSome_iff_exists.mp hs
    have hs' := slot?_eq_some.mp hs
    rw [if_pos rfl, hs, Option.map_some, slot?_eq_some]
    simp [Array.getElem?_modify, hs'.1]
  · rw [if_neg e]
    exact slot?_congr (by simp [Array.getElem?_modify, toNat_ne (Ne.symm e)])

theorem content_set {a : Arena α} {id : SlotId} {v : α} (h : a.content id.index = some (id, v)) (w : α) (j : UInt32) :
    (a.set id w).2.content j = if j = id.index then some (id, w) else a.content j := by
  by_cases e : j = id.index
  · subst e
    obtain ⟨s, hs, hv⟩ := Option.bind_eq_some_iff.mp h
    obtain ⟨_, _, hp⟩ := Option.map_eq_some_iff.mp hv
    simp only [Prod.mk.injEq] at hp
    simp [content, set_slots h, hs, hp.1]
  · rw [if_neg e]
    exact content_congr (by rw [set_slots h, if_neg e])

theorem Tidy.set {a : Arena α} {free : List UInt32} (h : a.Tidy free) {id : SlotId} {v : α}
    (hc : a.content id.index = some (id, v)) (w : α) : (a.set id w).2.Tidy free := by
  obtain ⟨s, hs, hv⟩ := Option.bind_eq_some_iff.mp hc
  have hs' := slot?_eq_some.mp hs
  rw [set_eq hc]
  refine h.of_slots rfl rfl (by simp) fun j t ht => ?_
  simp only [Array.getElem?_modify]
  split
  · rename_i e
    rw [← e, hs'.1]
    have h1 : { s with value := some w } ≠ t := fun e => by rw [← e] at ht; cases ht
    have h2 : s ≠ t := fun e => by rw [e, ht] at hs'; cases hs'.2
    simp [h1, h2]
  · rfl

/-! ## Removing -/

theorem exists_remove {a : Arena α} {id : SlotId} {v : α} (h : a.content id.index = some (id, v)) :
    ∃ b, a.remove id = some (v, b) ∧ b.live = a.live - 1 ∧ b.slots.size = a.slots.size ∧ b.capacity = a.capacity := by
  simp only [remove, get?_eq_some_iff.mpr h, Option.map_some]
  exact ⟨_, rfl, rfl, by simp, rfl⟩

theorem remove_slot? {a b : Arena α} {id : SlotId} {v : α} (h : a.remove id = some (v, b)) :
    b.slot? id.index = none ∧ ∀ j, j ≠ id.index → b.slot? j = a.slot? j := by
  simp only [remove, Option.map_eq_some_iff, Prod.mk.injEq] at h
  obtain ⟨_, _, rfl, rfl⟩ := h
  constructor
  · cases hs : a.slots[id.index.toNat]? <;> simp [slot?, Array.getElem?_modify, hs, Option.filter]
  · intro j hj
    exact slot?_congr (by simp [Array.getElem?_modify, toNat_ne (Ne.symm hj)])

theorem Tidy.remove {a b : Arena α} {free : List UInt32} (h : a.Tidy free) {id : SlotId} {v : α}
    (hr : a.remove id = some (v, b)) : b.Tidy (id.index :: free) := by
  simp only [Arena.remove, Option.map_eq_some_iff, Prod.mk.injEq] at hr
  obtain ⟨w, hg, rfl, rfl⟩ := hr
  have hc := get?_eq_some_iff.mp hg
  obtain ⟨s, hs, -⟩ := Option.bind_eq_some_iff.mp hc
  have hs' := slot?_eq_some.mp hs
  have hpos := h.live_pos hs
  have hi : id.index ∉ free := by
    intro hi
    obtain ⟨t, ht, hv⟩ := h.stack.free _ hi
    rw [hs'.1] at ht
    cases ht
    simp [hv] at hs'
  have hframe : ∀ i, i ≠ id.index → ∀ g : Slot α → Slot α,
      (a.slots.modify id.index.toNat g)[i.toNat]? = a.slots[i.toNat]? := fun i hne g => by
    simp [Array.getElem?_modify, toNat_ne (Ne.symm hne)]
  constructor
  · refine ⟨rfl, ⟨none, s.generation + 1, none, a.freeHead⟩, by simp [Array.getElem?_modify, hs'.1], rfl, ?_⟩
    exact h.stack.frame fun i hm t ht _ => by rw [hframe i (fun e => hi (e ▸ hm))]; exact ht
  · exact List.nodup_cons.mpr ⟨hi, h.nodup⟩
  · intro i t ht hv
    by_cases e : i = id.index
    · simp [e]
    · rw [hframe i e] at ht
      exact List.mem_cons_of_mem _ (h.complete i t ht hv)
  · have := h.count
    simp only [List.length_cons, Array.size_modify]
    omega
  · simpa using h.bounded

/-! ## Inserting -/

/-- An insertion fills the top of the free stack, or appends when the stack is empty. -/
theorem insert_cases {a : Arena α} {free : List UInt32} (h : a.Tidy free) (mem : Allocator) (v : α) :
    (∃ i rest s, free = i :: rest ∧ a.slots[i.toNat]? = some s ∧ s.value = none ∧ Threaded a.slots s.next rest ∧
      a.insert mem v = .ok (⟨i, s.generation⟩, { a with
        slots := a.slots.modify i.toNat fun s => ⟨some v, s.generation, none, none⟩
        freeHead := s.next
        live := a.live + 1 })) ∨
    (free = [] ∧ a.freeHead = none ∧ a.insert mem v = a.append mem v) := by
  cases free with
  | nil =>
    have hf : a.freeHead = none := h.stack
    exact Or.inr ⟨rfl, hf, by simp [insert, hf]⟩
  | cons i rest =>
    obtain ⟨hf, s, hs, hv, ht⟩ := h.stack
    exact Or.inl ⟨i, rest, s, rfl, hs, hv, ht, by simp [insert, hf, hs]⟩

/-- Reserving changes the room at most. -/
theorem reserve_ok {a b : Arena α} {mem : Allocator} {n : Nat} (h : a.reserve mem n = .ok b) :
    b = { a with capacity := b.capacity } ∧ a.slots.size + n ≤ maxSlots := by
  simp only [reserve] at h
  split at h
  · cases h
  · rename_i hm
    refine ⟨?_, by omega⟩
    split at h
    · cases h; rfl
    · cases mem with
      | refuses => cases h
      | grants => cases h; rfl

theorem append_ok {a b : Arena α} {mem : Allocator} {v : α} {id : SlotId} (h : a.append mem v = .ok (id, b)) :
    id = ⟨UInt32.ofNat a.slots.size, 0⟩ ∧ a.slots.size < maxSlots ∧
      b = { a with slots := a.slots.push ⟨some v, 0, none, none⟩, live := a.live + 1, capacity := b.capacity } := by
  simp only [append] at h
  cases hr : a.reserve mem 1 with
  | error e => rw [hr] at h; cases h
  | ok a1 =>
    obtain ⟨h1, h2⟩ := reserve_ok hr
    rw [hr] at h
    cases h
    rw [h1]
    exact ⟨rfl, by omega, rfl⟩

theorem toNat_ofNat_size {a : Arena α} (h : a.slots.size < maxSlots) :
    (UInt32.ofNat a.slots.size).toNat = a.slots.size :=
  UInt32.toNat_ofNat_of_lt' (Nat.lt_of_lt_of_le h (by decide))

/-- The new value stands alone in a slot that held none. -/
theorem insert_slot? {a b : Arena α} {free : List UInt32} (h : a.Tidy free) {mem : Allocator} {v : α} {id : SlotId}
    (hi : a.insert mem v = .ok (id, b)) :
    a.slot? id.index = none ∧ b.slot? id.index = some ⟨some v, id.generation, none, none⟩ ∧
      ∀ j, j ≠ id.index → b.slot? j = a.slot? j := by
  rcases insert_cases h mem v with ⟨i, rest, s, -, hs, hv, -, he⟩ | ⟨-, -, he⟩
  · rw [he] at hi
    cases hi
    refine ⟨by simp [slot?, hs, hv, Option.filter], by simp [slot?, Array.getElem?_modify, hs, Option.filter], ?_⟩
    intro j hj
    exact slot?_congr (by simp [Array.getElem?_modify, toNat_ne (Ne.symm hj)])
  · rw [he] at hi
    obtain ⟨rfl, hlt, hb⟩ := append_ok hi
    have hn := toNat_ofNat_size hlt
    rw [hb]
    refine ⟨by simp [slot?, hn], by simp [slot?, hn, Option.filter], ?_⟩
    intro j hj
    have : j.toNat ≠ a.slots.size := fun e => hj (UInt32.toNat_inj.mp (by rw [hn, e]))
    exact slot?_congr (by simp [Array.getElem?_push, this])

theorem Tidy.insert {a b : Arena α} {free : List UInt32} (h : a.Tidy free) {mem : Allocator} {v : α} {id : SlotId}
    (hi : a.insert mem v = .ok (id, b)) : b.Tidy free.tail ∧ b.live = a.live + 1 := by
  rcases insert_cases h mem v with ⟨i, rest, s, rfl, hs, hv, ht, he⟩ | ⟨rfl, hf, he⟩
  · rw [he] at hi
    cases hi
    have hnd := List.nodup_cons.mp h.nodup
    have hframe : ∀ j, j ≠ i → ∀ g : Slot α → Slot α,
        (a.slots.modify i.toNat g)[j.toNat]? = a.slots[j.toNat]? := fun j hne g => by
      simp [Array.getElem?_modify, toNat_ne (Ne.symm hne)]
    refine ⟨⟨?_, hnd.2, ?_, ?_, by simpa using h.bounded⟩, rfl⟩
    · exact ht.frame fun j hm t hj _ => by rw [hframe j (fun e => hnd.1 (e ▸ hm))]; exact hj
    · intro j t hj hv'
      by_cases e : j = i
      · subst e
        simp [Array.getElem?_modify, hs] at hj
        rw [← hj] at hv'
        cases hv'
      · rw [hframe j e] at hj
        exact (List.mem_cons.mp (h.complete j t hj hv')).resolve_left e
    · have := h.count
      simp only [List.length_cons, List.tail_cons, Array.size_modify] at this ⊢
      omega
  · rw [he] at hi
    obtain ⟨rfl, hlt, hb⟩ := append_ok hi
    have hc := h.count
    rw [hb]
    refine ⟨⟨hf, List.nodup_nil, ?_, by simpa using hc, by simp only [Array.size_push]; omega⟩, rfl⟩
    intro j t hj hv
    simp only [Array.getElem?_push] at hj
    split at hj
    · cases hj; cases hv
    · exact h.complete j t hj hv

/-- An insertion into an arena with a free slot is granted and takes no room. One into a
    full arena takes one more slot, if it can be had. -/
theorem insert_room {a : Arena α} {free : List UInt32} (h : a.Tidy free) (mem : Allocator) (v : α) :
    (a.insert mem v).map (fun p => (p.2.slots.size, p.2.capacity)) =
      if a.live < a.slots.size then .ok (a.slots.size, a.capacity)
      else (a.reserve mem 1).map fun b => (a.slots.size + 1, b.capacity) := by
  have hc := h.count
  rcases insert_cases h mem v with ⟨i, rest, s, rfl, -, -, -, he⟩ | ⟨rfl, -, he⟩
  · rw [he, if_pos (by simp only [List.length_cons] at hc; omega)]
    simp [Except.map]
  · rw [he, if_neg (by simp only [List.length_nil] at hc; omega), append]
    cases hr : a.reserve mem 1 with
    | error e => rfl
    | ok b => rw [(reserve_ok hr).1]; simp [Except.map]

end Recency.Arena

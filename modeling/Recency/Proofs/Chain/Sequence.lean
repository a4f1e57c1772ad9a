import Mathlib.Data.List.Induction
import Recency.Proofs.Chain.Order
/-
  Recency.Proofs.Chain.Sequence — every history of a chain is a history of a list.

  A history is a list of operations, with handles that may be live, stale or made up, and an
  allocator that may refuse at each of them. After any history the chain reads as one list
  of handles and values, without a handle twice: forward from the head, backward from the
  tail, at its ends and by its length (`Reads`). Each further operation does to that list
  what its name says (`Follows`), and one that finds no such handle, or no memory, leaves the
  chain as it was (`applyAll_refines`).

  `links` are all the indices that a chain stores, used or not. None leads out of the arena.
-/

namespace Recency

variable {α : Type}

/-! ## Free slots -/

/-- A free slot leads back nowhere. -/
def Arena.Grounded (a : Arena α) : Prop :=
  ∀ (i : UInt32) s, a.slots[i.toNat]? = some s → s.value = none → s.prev = none

namespace Arena.Grounded

variable {a b : Arena α}

theorem modifySlot (h : a.Grounded) (i : UInt32) {f : Slot α → Slot α} (hf : Relinks f) :
    (a.modifySlot i f).Grounded := by
  intro j s hs hv
  rw [slots_modifySlot] at hs
  split at hs
  · obtain ⟨t, ht, rfl⟩ := Option.map_eq_some_iff.mp hs
    split at hv
    · -- a filled slot stays filled
      rename_i hsome
      rw [(hf t).1] at hv
      rw [hv] at hsome
      cases hsome
    · rename_i hnone
      rw [if_neg hnone]
      exact h j t ht hv
  · exact h j s hs hv

theorem set (h : a.Grounded) {id : SlotId} {v : α} (hc : a.content id.index = some (id, v)) (w : α) :
    (a.set id w).2.Grounded := by
  intro j s hs hv
  rw [set_eq hc] at hs
  simp only [Array.getElem?_modify] at hs
  split at hs
  · obtain ⟨t, -, rfl⟩ := Option.map_eq_some_iff.mp hs
    cases hv
  · exact h j s hs hv

theorem remove (h : a.Grounded) {id : SlotId} {v : α} (hr : a.remove id = some (v, b)) : b.Grounded := by
  simp only [Arena.remove, Option.map_eq_some_iff, Prod.mk.injEq] at hr
  obtain ⟨_, _, rfl, rfl⟩ := hr
  intro j s hs hv
  simp only [Array.getElem?_modify] at hs
  split at hs
  · obtain ⟨t, -, rfl⟩ := Option.map_eq_some_iff.mp hs
    rfl
  · exact h j s hs hv

theorem insert (h : a.Grounded) {free : List UInt32} (hf : a.Tidy free) {mem : Allocator} {v : α} {id : SlotId}
    (hi : a.insert mem v = .ok (id, b)) : b.Grounded := by
  intro j s hs hv
  rcases insert_cases hf mem v with ⟨i, rest, t, -, -, -, -, he⟩ | ⟨-, -, he⟩
  · rw [he] at hi
    cases hi
    simp only [Array.getElem?_modify] at hs
    split at hs
    · obtain ⟨t, -, rfl⟩ := Option.map_eq_some_iff.mp hs
      cases hv
    · exact h j s hs hv
  · rw [he] at hi
    obtain ⟨-, -, hb⟩ := append_ok hi
    rw [hb] at hs
    simp only [Array.getElem?_push] at hs
    split at hs
    · cases hs
      cases hv
    · exact h j s hs hv

end Arena.Grounded

namespace Chain

open Arena (Grounded)

theorem grounded_setNext {a : Arena α} (h : a.Grounded) (link next : Option UInt32) :
    (setNext a link next).Grounded := by
  cases link with
  | none => exact h
  | some i => exact h.modifySlot i (relinks_next next)

theorem grounded_setPrev {a : Arena α} (h : a.Grounded) (link prev : Option UInt32) :
    (setPrev a link prev).Grounded := by
  cases link with
  | none => exact h
  | some i => exact h.modifySlot i (relinks_prev prev)

theorem grounded_unlink {c : Chain α} (h : c.arena.Grounded) (i : UInt32) : (c.unlink i).arena.Grounded := by
  cases hs : c.arena.slot? i with
  | none => simp only [unlink, hs]; exact h
  | some s =>
    rw [unlink_eq hs]
    exact (grounded_setPrev (grounded_setNext h _ _) _ _).modifySlot i (relinks_both none none)

theorem grounded_attachFront {c : Chain α} (h : c.arena.Grounded) (i : UInt32) :
    (c.attachFront i).arena.Grounded := by
  cases hs : c.arena.slot? i with
  | none => simp only [attachFront, hs]; exact h
  | some s =>
    rw [attachFront_eq (by rw [hs]; rfl)]
    exact grounded_setPrev (h.modifySlot i (relinks_both none c.head)) _ _

/-! ## Walking back -/

/-- At most `fuel` nodes from `i` toward the head. -/
def walkBack (a : Arena α) : Nat → Option UInt32 → List (SlotId × α)
  | 0, _ => []
  | _, none => []
  | fuel + 1, some i =>
    match a.slots[i.toNat]? with
    | some ⟨some value, generation, prev, _⟩ => (⟨i, generation⟩, value) :: walkBack a fuel prev
    | _ => []

theorem walkBack_filled {a : Arena α} {i : UInt32} {s : Slot α} {v : α} (hs : a.slots[i.toNat]? = some s)
    (hv : s.value = some v) (fuel : Nat) :
    walkBack a (fuel + 1) (some i) = (⟨i, s.generation⟩, v) :: walkBack a fuel s.prev := by
  obtain ⟨_, g, prev, _⟩ := s
  cases hv
  simp [walkBack, hs]

/-- From the last slot of a stretch that leads back nowhere, the way back is the stretch reversed. -/
theorem walkBack_strung {a : Arena α} {is : List UInt32} {n : Option UInt32} (h : Strung a none is n) :
    ∀ fuel, is.length ≤ fuel → walkBack a fuel is.getLast? = (is.filterMap a.content).reverse := by
  -- the way back begins where the list ends, so the list is taken apart at its end
  induction is using List.reverseRecOn generalizing n with
  | nil => intro fuel _; cases fuel <;> rfl
  | append_singleton l i ih =>
    obtain ⟨hl, ⟨s, hs, hp, -⟩, -⟩ := (strung_append ..).mp h
    rw [Option.or_none] at hp
    intro fuel hf
    cases fuel with
    | zero => simp at hf
    | succ fuel =>
      obtain ⟨hs', hv⟩ := Arena.slot?_eq_some.mp hs
      obtain ⟨v, hv⟩ := Option.isSome_iff_exists.mp hv
      have hc : a.content i = some (⟨i, s.generation⟩, v) := by simp [Arena.content, hs, hv]
      have hback := ih hl fuel (by simpa using hf)
      rw [List.getLast?_concat, walkBack_filled hs' hv, hp, hback, List.filterMap_append, List.reverse_append]
      simp [hc]

/-! ## The indices stored -/

/-- Every index that a chain stores: its ends, the top of the free stack, and the links of
    all slots, filled or free. -/
def links (c : Chain α) : List UInt32 :=
  c.head.toList ++ c.tail.toList ++ c.arena.freeHead.toList ++
    c.arena.slots.toList.flatMap fun s => s.prev.toList ++ s.next.toList

theorem lt_size_of_slot? {a : Arena α} {i : UInt32} {s : Slot α} (h : a.slot? i = some s) : i.toNat < a.slots.size :=
  (Array.getElem?_eq_some_iff.mp (Arena.slot?_eq_some.mp h).1).1

/-- A filled slot of a stretch leads to slots of the stretch or to its surroundings. -/
theorem Strung.neighbours {a : Arena α} {p n : Option UInt32} {is : List UInt32} (h : Strung a p is n) {i : UInt32}
    (hi : i ∈ is) {s : Slot α} (hs : a.slot? i = some s) :
    (∀ j, s.prev = some j → p = some j ∨ j ∈ is) ∧ ∀ j, s.next = some j → n = some j ∨ j ∈ is := by
  induction is generalizing p with
  | nil => cases hi
  | cons k is ih =>
    obtain ⟨⟨t, ht, hp, hn⟩, hr⟩ := h
    rcases List.mem_cons.mp hi with rfl | hi
    · rw [hs] at ht
      cases ht
      refine ⟨fun j hj => .inl (hp ▸ hj), fun j hj => ?_⟩
      rw [hj] at hn
      rcases Option.or_eq_some_iff.mp hn.symm with he | ⟨-, he⟩
      · exact .inr (List.mem_cons_of_mem _ (List.mem_of_mem_head? he))
      · exact .inl he
    · obtain ⟨h1, h2⟩ := ih hr hi
      refine ⟨fun j hj => ?_, fun j hj => (h2 j hj).imp_right (List.mem_cons_of_mem _)⟩
      rcases h1 j hj with he | he
      · cases he
        exact .inr List.mem_cons_self
      · exact .inr (List.mem_cons_of_mem _ he)

theorem Strung.filled {a : Arena α} {p n : Option UInt32} {is : List UInt32} (h : Strung a p is n) {i : UInt32}
    (hi : i ∈ is) : ∃ s, a.slot? i = some s := by
  induction is generalizing p with
  | nil => cases hi
  | cons k is ih =>
    obtain ⟨⟨t, ht, -, -⟩, hr⟩ := h
    rcases List.mem_cons.mp hi with rfl | hi
    · exact ⟨t, ht⟩
    · exact ih hr hi

/-- A free slot of a stack leads to a slot of the stack. -/
theorem threaded_next {slots : Array (Slot α)} {link : Option UInt32} {free : List UInt32}
    (h : Arena.Threaded slots link free) :
    (∀ j, link = some j → j ∈ free) ∧
      ∀ i ∈ free, ∀ s, slots[i.toNat]? = some s → ∀ j, s.next = some j → j ∈ free := by
  induction free generalizing link with
  | nil =>
    refine ⟨fun j hj => ?_, fun i hi => (nomatch hi)⟩
    rw [show link = none from h] at hj
    cases hj
  | cons k free ih =>
    obtain ⟨rfl, t, ht, -, hr⟩ := h
    obtain ⟨h1, h2⟩ := ih hr
    refine ⟨fun j hj => by cases hj; exact List.mem_cons_self, fun i hi s hs j hj => ?_⟩
    rcases List.mem_cons.mp hi with rfl | hi
    · rw [ht] at hs
      cases hs
      exact List.mem_cons_of_mem _ (h1 j hj)
    · exact List.mem_cons_of_mem _ (h2 i hi s hs j hj)

theorem WellFormed.links_lt {c : Chain α} (h : c.WellFormed) (hg : c.arena.Grounded) :
    ∀ i ∈ c.links, i.toNat < c.arena.slots.size := by
  obtain ⟨nodes, h⟩ := h
  obtain ⟨free, hf⟩ := h.tidy
  have hnode : ∀ i ∈ nodes, i.toNat < c.arena.slots.size := fun i hi =>
    have ⟨_, hs⟩ := h.ordered.strung.filled hi
    lt_size_of_slot? hs
  have hfree : ∀ i ∈ free, i.toNat < c.arena.slots.size := fun i hi =>
    have ⟨_, hs, _⟩ := hf.stack.free i hi
    (Array.getElem?_eq_some_iff.mp hs).1
  obtain ⟨htop, hnext⟩ := threaded_next hf.stack
  intro i hi
  simp only [links, List.mem_append, Option.mem_toList, List.mem_flatMap] at hi
  rcases hi with ((hi | hi) | hi) | ⟨s, hs, hi⟩
  · exact hnode i (List.mem_of_mem_head? (h.ordered.head ▸ hi))
  · exact hnode i (List.mem_of_getLast? (h.ordered.tail ▸ hi))
  · exact hfree i (htop i hi)
  obtain ⟨n, hn, hs⟩ := List.mem_iff_getElem.mp hs
  rw [Array.length_toList] at hn
  have hidx : (UInt32.ofNat n).toNat = n :=
    UInt32.toNat_ofNat_of_lt' (Nat.lt_of_lt_of_le hn (Nat.le_trans hf.bounded (by decide)))
  have hs : c.arena.slots[(UInt32.ofNat n).toNat]? = some s := by
    rw [hidx, Array.getElem?_eq_some_iff]
    exact ⟨hn, by simpa using hs⟩
  cases hv : s.value with
  | none =>
    rcases hi with hi | hi
    · rw [hg _ s hs hv] at hi
      cases hi
    · exact hfree i (hnext _ (hf.complete _ s hs hv) s hs i hi)
  | some v =>
    have hslot : c.arena.slot? (UInt32.ofNat n) = some s := Arena.slot?_eq_some.mpr ⟨hs, by rw [hv]; rfl⟩
    have hmem : UInt32.ofNat n ∈ nodes := (h.mem_iff _).mpr (by rw [Arena.isSome_content, hslot]; rfl)
    obtain ⟨h1, h2⟩ := h.ordered.strung.neighbours hmem hslot
    rcases hi with hi | hi
    · exact hnode i ((h1 i hi).resolve_left (by simp))
    · exact hnode i ((h2 i hi).resolve_left (by simp))

/-! ## Operations as data -/

inductive Op (α : Type) where
  | pushFront (value : α)
  | moveToFront (id : SlotId)
  | popBack
  | remove (id : SlotId)
  | get (id : SlotId)
  | set (id : SlotId) (value : α)
  | reserve (additional : Nat)
  | clear
  deriving DecidableEq, Repr

inductive Reply (α : Type) where
  | pushed (id : SlotId)
  | refused (e : ArenaError)
  | moved (b : Bool)
  | popped (p : Option (SlotId × α))
  | value (v : Option α)
  | done
  deriving DecidableEq, Repr

/-- There was no such node, or no memory. -/
def Reply.failed : Reply α → Bool
  | .refused _ | .moved false | .popped none | .value none => true
  | _ => false

/-- Carries out an operation while the allocator is as `mem` says. -/
def apply (mem : Allocator) (op : Op α) (c : Chain α) : Reply α × Chain α :=
  match op with
  | .pushFront v =>
    match c.pushFront mem v with
    | .error e => (.refused e, c)
    | .ok (id, d) => (.pushed id, d)
  | .moveToFront id => (.moved (c.moveToFront id).1, (c.moveToFront id).2)
  | .popBack =>
    match c.popBack with
    | none => (.popped none, c)
    | some (p, d) => (.popped (some p), d)
  | .remove id =>
    match c.remove id with
    | none => (.value none, c)
    | some (v, d) => (.value (some v), d)
  | .get id => (.value (c.get? id), c)
  | .set id v => (.value (c.set id v).1, (c.set id v).2)
  | .reserve additional =>
    match c.reserve mem additional with
    | .error e => (.refused e, c)
    | .ok d => (.done, d)
  | .clear => (.done, c.clear)

def applyAll : List (Allocator × Op α) → Chain α → Chain α
  | [], c => c
  | (mem, op) :: ops, c => applyAll ops (apply mem op c).2

/-! ## What a chain reads as -/

/-- However it is read, `c` is the list `s`. Any fuel that suffices for `s` shows that the
    walks end by themselves. -/
structure Reads (c : Chain α) (s : List (SlotId × α)) : Prop where
  ids_nodup : (s.map (·.1)).Nodup
  entries : c.entries = s
  values : c.values = s.map (·.2)
  forward : ∀ fuel, s.length ≤ fuel → walk c.arena fuel c.head = s
  backward : ∀ fuel, s.length ≤ fuel → walkBack c.arena fuel c.tail = s.reverse
  front : c.front? = s.head?.map (·.2)
  back : c.back? = s.getLast?.map (·.2)
  frontId : c.frontId? = s.head?.map (·.1)
  backId : c.backId? = s.getLast?.map (·.1)
  length : c.length = s.length
  get : ∀ id v, c.get? id = some v ↔ (id, v) ∈ s
  check : c.check = .ok ()
  in_bounds : ∀ i ∈ c.links, i.toNat < c.arena.slots.size

/-- The value at a filled end of the chain. -/
theorem slot?_value {a : Arena α} {p : SlotId × α} (h : a.content p.1.index = some p) :
    (a.slot? p.1.index).bind (·.value) = some p.2 := by
  obtain ⟨s, hs, hv⟩ := Option.bind_eq_some_iff.mp h
  obtain ⟨v, hv, he⟩ := Option.map_eq_some_iff.mp hv
  rw [hs, ← he]
  exact hv

/-- What links lead to, read as a handle and as a value. -/
theorem WellFormed.ends {c : Chain α} (h : c.WellFormed) {link : Option UInt32} {p : Option (SlotId × α)}
    (hl : link = p.map (·.1.index)) (hp : ∀ q, p = some q → q ∈ c.entries) :
    link.bind c.arena.idAt? = p.map (·.1) ∧ (link.bind c.arena.slot?).bind (·.value) = p.map (·.2) := by
  cases p with
  | none => exact ⟨by rw [hl]; rfl, by rw [hl]; rfl⟩
  | some q =>
    have hc := h.mem_entries.mp (hp q rfl)
    exact ⟨by simp [hl, Arena.idAt?_eq, hc], by simp [hl, slot?_value hc]⟩

/-- A well-formed chain whose free slots lead back nowhere. -/
structure Kept (c : Chain α) : Prop where
  wellFormed : c.WellFormed
  grounded : c.arena.Grounded

theorem Kept.reads {c : Chain α} (h : c.Kept) : c.Reads c.entries := by
  have hw := h.wellFormed
  obtain ⟨nodes, hs⟩ := hw
  have hhead : c.head = c.entries.head?.map (·.1.index) := by
    rw [hs.ordered.head, ← List.head?_map, hs.indices_eq]
  have htail : c.tail = c.entries.getLast?.map (·.1.index) := by
    rw [hs.ordered.tail, ← List.getLast?_map, hs.indices_eq]
  have hlen : nodes.length = c.entries.length := by rw [← hs.indices_eq, List.length_map]
  obtain ⟨hfrontId, hfront⟩ := h.wellFormed.ends hhead fun q hq => List.mem_of_mem_head? hq
  obtain ⟨hbackId, hback⟩ := h.wellFormed.ends htail fun q hq => List.mem_of_getLast? hq
  refine ⟨h.wellFormed.ids_nodup, rfl, rfl, fun fuel hf => ?_, fun fuel hf => ?_, hfront, hback, hfrontId, hbackId,
    h.wellFormed.length_eq, fun id v => h.wellFormed.get?_eq_some_iff, h.wellFormed.check_eq,
    h.wellFormed.links_lt h.grounded⟩
  · rw [hs.ordered.head, walk_strung hs.ordered.strung fuel (by omega), hs.entries_eq]
  · rw [hs.ordered.tail, walkBack_strung hs.ordered.strung fuel (by omega), hs.entries_eq]

/-! ## What an operation does to the list -/

inductive Follows (s : List (SlotId × α)) : Op α → Reply α → List (SlotId × α) → Prop
  | pushed {id : SlotId} (v : α) : id ∉ s.map (·.1) → Follows s (.pushFront v) (.pushed id) ((id, v) :: s)
  | pushRefused (v : α) (e : ArenaError) : Follows s (.pushFront v) (.refused e) s
  | moved {id : SlotId} {v : α} :
      (id, v) ∈ s → Follows s (.moveToFront id) (.moved true) ((id, v) :: s.filter (·.1 ≠ id))
  | notMoved {id : SlotId} : id ∉ s.map (·.1) → Follows s (.moveToFront id) (.moved false) s
  | popped {p : SlotId × α} {r : List (SlotId × α)} : s = r ++ [p] → Follows s .popBack (.popped (some p)) r
  | notPopped : s = [] → Follows s .popBack (.popped none) s
  | removed {id : SlotId} {v : α} :
      (id, v) ∈ s → Follows s (.remove id) (.value (some v)) (s.filter (·.1 ≠ id))
  | notRemoved {id : SlotId} : id ∉ s.map (·.1) → Follows s (.remove id) (.value none) s
  | got {id : SlotId} {v : α} : (id, v) ∈ s → Follows s (.get id) (.value (some v)) s
  | notGot {id : SlotId} : id ∉ s.map (·.1) → Follows s (.get id) (.value none) s
  | set {id : SlotId} {v : α} (w : α) :
      (id, v) ∈ s → Follows s (.set id w) (.value (some v)) (s.map fun p => if p.1 = id then (id, w) else p)
  | notSet {id : SlotId} (w : α) : id ∉ s.map (·.1) → Follows s (.set id w) (.value none) s
  | reserved (n : Nat) : Follows s (.reserve n) .done s
  | reserveRefused (n : Nat) (e : ArenaError) : Follows s (.reserve n) (.refused e) s
  | cleared : Follows s .clear .done []

/-- A handle is that of a node or not in the list. -/
theorem WellFormed.cases_id {c : Chain α} (h : c.WellFormed) (id : SlotId) :
    (∃ v, (id, v) ∈ c.entries ∧ c.get? id = some v) ∨ (id ∉ c.entries.map (·.1) ∧ c.get? id = none) := by
  cases hg : c.get? id with
  | some v => exact .inl ⟨v, h.get?_eq_some_iff.mp hg, rfl⟩
  | none =>
    refine .inr ⟨fun hm => ?_, rfl⟩
    obtain ⟨⟨_, v⟩, hm', rfl⟩ := List.mem_map.mp hm
    rw [h.get?_eq_some_iff.mpr hm'] at hg
    cases hg

theorem contains_of_get? {c : Chain α} {id : SlotId} (h : c.get? id = none) : c.contains id = false := by
  show (c.get? id).isSome = false
  rw [h]; rfl

/-- More room changes neither the nodes nor the free slots. -/
theorem Kept.withRoom {c : Chain α} (h : c.Kept) (capacity : Nat) :
    Kept { c with arena := { c.arena with capacity } } ∧
      entries { c with arena := { c.arena with capacity } } = c.entries := by
  obtain ⟨nodes, hs⟩ := h.wellFormed
  obtain ⟨free, hf⟩ := hs.tidy
  have hs' : Shape { c with arena := { c.arena with capacity } } nodes :=
    ⟨⟨hs.ordered.strung.frame fun _ _ => rfl, hs.ordered.head, hs.ordered.tail, hs.ordered.nodup⟩,
      ⟨free, hf.stack, hf.nodup, hf.complete, hf.count, hf.bounded⟩, hs.mem_iff, hs.live⟩
  exact ⟨⟨⟨nodes, hs'⟩, h.grounded⟩, by rw [hs'.entries_eq, hs.entries_eq]; rfl⟩

section Steps

variable {c : Chain α} (h : c.Kept)
include h

theorem Kept.pushFront_cases (mem : Allocator) (v : α) :
    (∃ e, c.pushFront mem v = .error e ∧ c.entries.length = c.arena.slots.size ∧ c.arena.reserve mem 1 = .error e) ∨
      ∃ id d, c.pushFront mem v = .ok (id, d) ∧ d.Kept ∧ id ∉ c.entries.map (·.1) ∧
        d.entries = (id, v) :: c.entries := by
  have hroom := h.wellFormed.pushFront_room mem v
  cases hp : c.pushFront mem v with
  | error e =>
    refine .inl ⟨e, rfl, ?_⟩
    have hle := h.wellFormed.length_le.1
    rw [hp] at hroom
    split at hroom
    · cases hroom
    · cases hr : c.arena.reserve mem 1 with
      | ok b => rw [hr] at hroom; cases hroom
      | error e' =>
        rw [hr] at hroom
        cases hroom
        exact ⟨by omega, rfl⟩
  | ok p =>
    obtain ⟨id, d⟩ := p
    obtain ⟨hwf, hent⟩ := h.wellFormed.pushFront hp
    refine .inr ⟨id, d, rfl, ⟨hwf, ?_⟩, ?_, hent⟩
    · obtain ⟨nodes, hs⟩ := h.wellFormed
      obtain ⟨free, hf⟩ := hs.tidy
      simp only [pushFront] at hp
      cases hi : c.arena.insert mem v with
      | error e => rw [hi] at hp; cases hp
      | ok q =>
        rw [hi] at hp
        cases hp
        exact grounded_attachFront (c := { c with arena := q.2 }) (h.grounded.insert hf hi) _
    · have := hwf.ids_nodup
      rw [hent] at this
      exact (List.nodup_cons.mp this).1

theorem Kept.moveToFront {id : SlotId} {v : α} (hm : (id, v) ∈ c.entries) :
    (c.moveToFront id).1 = true ∧ (c.moveToFront id).2.Kept ∧
      (c.moveToFront id).2.entries = (id, v) :: c.entries.filter (·.1 ≠ id) := by
  obtain ⟨htrue, hwf, hent, -⟩ := h.wellFormed.moveToFront hm
  refine ⟨htrue, ⟨hwf, ?_⟩, hent⟩
  simp only [Chain.moveToFront]
  split
  · split
    · exact h.grounded
    · exact grounded_attachFront (grounded_unlink h.grounded _) _
  · exact h.grounded

theorem Kept.remove {id : SlotId} {v : α} (hm : (id, v) ∈ c.entries) :
    ∃ d, c.remove id = some (v, d) ∧ d.Kept ∧ d.entries = c.entries.filter (·.1 ≠ id) := by
  obtain ⟨d, hrem, hwf, hent, -⟩ := h.wellFormed.remove hm
  refine ⟨d, hrem, ⟨hwf, ?_⟩, hent⟩
  simp only [Chain.remove] at hrem
  split at hrem
  · obtain ⟨⟨w, b⟩, hb, he⟩ := Option.map_eq_some_iff.mp hrem
    cases he
    exact (grounded_unlink h.grounded _).remove hb
  · cases hrem

theorem Kept.popBack_cases :
    (c.entries = [] ∧ c.popBack = none) ∨
      ∃ p d, c.popBack = some (p, d) ∧ d.Kept ∧ c.entries = d.entries ++ [p] := by
  rcases List.eq_nil_or_concat c.entries with hnil | ⟨r, ⟨id, v⟩, hr⟩
  · refine .inl ⟨hnil, ?_⟩
    rw [Chain.popBack, h.wellFormed.backId?_eq, hnil]
    rfl
  · rw [List.concat_eq_append] at hr
    have hlast : c.entries.getLast? = some (id, v) := by rw [hr, List.getLast?_concat]
    obtain ⟨d, hrem, hd, hent⟩ := h.remove (List.mem_of_getLast? hlast)
    refine .inr ⟨(id, v), d, ?_, hd, ?_⟩
    · rw [Chain.popBack, h.wellFormed.backId?_eq, hlast]
      simp [hrem]
    · rw [hent, filter_key_getLast h.wellFormed.ids_nodup hlast, hr, List.dropLast_concat]

theorem Kept.set {id : SlotId} {v : α} (hm : (id, v) ∈ c.entries) (w : α) :
    (c.set id w).1 = some v ∧ (c.set id w).2.Kept ∧
      (c.set id w).2.entries = c.entries.map fun p => if p.1 = id then (id, w) else p := by
  obtain ⟨hwf, hent, -⟩ := h.wellFormed.set hm w
  have hc := h.wellFormed.mem_entries.mp hm
  exact ⟨congrArg Prod.fst (Arena.set_eq hc w), ⟨hwf, h.grounded.set hc w⟩, hent⟩

/-- A step: what the list becomes, and that a failure changes nothing. -/
theorem Kept.apply (mem : Allocator) (op : Op α) :
    (apply mem op c).2.Kept ∧ Follows c.entries op (apply mem op c).1 (apply mem op c).2.entries ∧
      ((apply mem op c).1.failed = true → (apply mem op c).2 = c) := by
  cases op with
  | pushFront v =>
    rcases h.pushFront_cases mem v with ⟨e, he, -⟩ | ⟨id, d, he, hd, hid, hent⟩
    · simp only [Chain.apply, he]
      exact ⟨h, .pushRefused v e, fun _ => trivial⟩
    · simp only [Chain.apply, he, hent]
      exact ⟨hd, .pushed v hid, fun hf => absurd hf Bool.false_ne_true⟩
  | moveToFront id =>
    rcases h.wellFormed.cases_id id with ⟨v, hm, -⟩ | ⟨hm, hg⟩
    · obtain ⟨htrue, hd, hent⟩ := h.moveToFront hm
      simp only [Chain.apply, htrue, hent]
      exact ⟨hd, .moved hm, fun hf => absurd hf Bool.false_ne_true⟩
    · simp only [Chain.apply, Chain.moveToFront, contains_of_get? hg]
      exact ⟨h, .notMoved hm, fun _ => rfl⟩
  | popBack =>
    rcases h.popBack_cases with ⟨hnil, he⟩ | ⟨p, d, he, hd, hent⟩
    · simp only [Chain.apply, he]
      exact ⟨h, .notPopped hnil, fun _ => trivial⟩
    · simp only [Chain.apply, he]
      exact ⟨hd, .popped hent, fun hf => absurd hf Bool.false_ne_true⟩
  | remove id =>
    rcases h.wellFormed.cases_id id with ⟨v, hm, -⟩ | ⟨hm, hg⟩
    · obtain ⟨d, he, hd, hent⟩ := h.remove hm
      simp only [Chain.apply, he, hent]
      exact ⟨hd, .removed hm, fun hf => absurd hf Bool.false_ne_true⟩
    · simp only [Chain.apply, Chain.remove, contains_of_get? hg]
      exact ⟨h, .notRemoved hm, fun _ => rfl⟩
  | get id =>
    refine ⟨h, ?_, fun _ => rfl⟩
    rcases h.wellFormed.cases_id id with ⟨v, hm, hg⟩ | ⟨hm, hg⟩
    · simp only [Chain.apply, hg]
      exact .got hm
    · simp only [Chain.apply, hg]
      exact .notGot hm
  | set id w =>
    rcases h.wellFormed.cases_id id with ⟨v, hm, -⟩ | ⟨hm, hg⟩
    · obtain ⟨hold, hd, hent⟩ := h.set hm w
      simp only [Chain.apply, hold, hent]
      exact ⟨hd, .set w hm, fun hf => absurd hf Bool.false_ne_true⟩
    · have hset : c.set id w = (none, c) := by
        have hg : c.arena.get? id = none := hg
        simp only [Chain.set, Arena.set, hg]
      simp only [Chain.apply, hset]
      exact ⟨h, .notSet w hm, fun _ => trivial⟩
  | reserve n =>
    cases hr : c.arena.reserve mem n with
    | error e =>
      simp only [Chain.apply, Chain.reserve, hr, Except.map]
      exact ⟨h, .reserveRefused n e, fun _ => trivial⟩
    | ok b =>
      obtain ⟨hd, hent⟩ := h.withRoom b.capacity
      simp only [Chain.apply, Chain.reserve, hr, Except.map]
      rw [(Arena.reserve_ok hr).1, hent]
      exact ⟨hd, .reserved n, fun hf => absurd hf Bool.false_ne_true⟩
  | clear =>
    obtain ⟨hwf, hent⟩ := wellFormed_clear c
    simp only [Chain.apply, hent]
    refine ⟨⟨hwf, fun i s hs => ?_⟩, .cleared, fun hf => absurd hf Bool.false_ne_true⟩
    simp [Chain.clear, Arena.clear] at hs

theorem Kept.applyAll (ops : List (Allocator × Op α)) : (applyAll ops c).Kept := by
  induction ops generalizing c with
  | nil => exact h
  | cons p ops ih => exact ih (h.apply p.1 p.2).1

end Steps

theorem kept_withCapacity (n : Nat) : (withCapacity n : Chain α).Kept :=
  ⟨(wellFormed_withCapacity n).1, fun i s hs => by simp [withCapacity, Arena.withCapacity] at hs⟩

/-- After any history the chain reads as a list, and each further operation makes of it what
    it makes of that list. An operation that fails leaves the chain as it was, and a push
    fails only when all slots are filled and no more are to be had. -/
theorem applyAll_refines (n : Nat) (ops : List (Allocator × Op α)) :
    let c := applyAll ops (withCapacity n : Chain α)
    ∃ s, Reads c s ∧ ∀ mem op,
      (∃ s', Reads (apply mem op c).2 s' ∧ Follows s op (apply mem op c).1 s') ∧
      ((apply mem op c).1.failed = true → (apply mem op c).2 = c) ∧
      ∀ v e, c.pushFront mem v = .error e → s.length = c.arena.slots.size ∧ c.arena.reserve mem 1 = .error e := by
  intro c
  have hc : c.Kept := (kept_withCapacity n).applyAll ops
  refine ⟨_, hc.reads, fun mem op => ?_⟩
  obtain ⟨hd, hf, hsame⟩ := hc.apply mem op
  refine ⟨⟨_, hd.reads, hf⟩, hsame, fun v e he => ?_⟩
  rcases hc.pushFront_cases mem v with ⟨e', he', hfull⟩ | ⟨id, d, he', -⟩
  · rw [he] at he'
    cases he'
    exact hfull
  · rw [he] at he'
    cases he'

end Chain

end Recency

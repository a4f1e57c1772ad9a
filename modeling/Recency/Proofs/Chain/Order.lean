import Recency.Chain.Check
import Recency.Proofs.Chain.Links
/-
  Recency.Proofs.Chain.Order — a chain is a list of handles and values.

  A chain is well formed when its links pass through exactly the filled slots of a tidy
  arena. Each operation then does to `entries` what it would do to a plain list, and
  keeps the chain well formed; a handle resolves exactly when it is in the list.

  - `WellFormed.pushFront`, `WellFormed.moveToFront`, `WellFormed.set`, `WellFormed.remove`,
    `wellFormed_clear`: the operations.
  - `WellFormed.get?_eq_some_iff`, `WellFormed.backId?_eq`, `WellFormed.length_eq`: what is read.
  - `WellFormed.check_eq`: the check finds no fault.
-/

namespace Recency

/-! ## Lists with distinct keys -/

section Keyed

variable {α β : Type} [DecidableEq β]

/-- Of a list with distinct keys, one element and those of other keys. -/
theorem perm_cons_filter_key {f : α → β} {l : List α} (h : (l.map f).Nodup) {a : α} (ha : a ∈ l) :
    l.Perm (a :: l.filter (f · ≠ f a)) := by
  induction l with
  | nil => cases ha
  | cons b l ih =>
    obtain ⟨hb, hl⟩ := List.nodup_cons.mp h
    rcases List.mem_cons.mp ha with rfl | ha
    · have hk : l.filter (f · ≠ f a) = l := List.filter_eq_self.mpr fun x hx => by
        have : f x ≠ f a := fun e => hb (e ▸ List.mem_map_of_mem hx)
        simpa using this
      rw [List.filter_cons_of_neg (by simp), hk]
    · have hne : f b ≠ f a := fun e => hb (e ▸ List.mem_map_of_mem ha)
      rw [List.filter_cons_of_pos (by simpa using hne)]
      exact ((ih hl ha).cons b).trans (.swap ..)

theorem filter_key_getLast {f : α → β} {l : List α} (h : (l.map f).Nodup) {a : α} (ha : l.getLast? = some a) :
    l.filter (f · ≠ f a) = l.dropLast := by
  obtain ⟨l, rfl⟩ := List.getLast?_eq_some_iff.mp ha
  rw [List.map_append, List.nodup_append] at h
  have hk : l.filter (f · ≠ f a) = l := List.filter_eq_self.mpr fun x hx => by
    have : f x ≠ f a := h.2.2 _ (List.mem_map_of_mem hx) _ (by simp)
    simpa using this
  rw [List.filter_append, hk, List.dropLast_concat]
  simp

theorem find?_key_eq_some {f : α → β} {l : List α} (h : (l.map f).Nodup) {b : β} {a : α} :
    l.find? (f · = b) = some a ↔ a ∈ l ∧ f a = b := by
  constructor
  · intro hf
    exact ⟨List.mem_of_find?_eq_some hf, by simpa using List.find?_some hf⟩
  · rintro ⟨ha, rfl⟩
    obtain ⟨x, hx⟩ : ∃ x, l.find? (f · = f a) = some x :=
      Option.isSome_iff_exists.mp (List.find?_isSome.mpr ⟨a, ha, by simp⟩)
    have hk : f x = f a := by simpa using List.find?_some hx
    rw [hx, List.inj_on_of_nodup_map h (List.mem_of_find?_eq_some hx) ha hk]

end Keyed

variable {α : Type}

/-- The slots there are and the slots there is room for. -/
def Arena.room (a : Arena α) : Nat × Nat := (a.slots.size, a.capacity)

theorem Arena.Relinked.room {a b : Arena α} (h : a.Relinked b) : b.room = a.room := by
  simp only [Arena.room, h.size, h.capacity]

namespace Chain

/-- The chain passes through exactly the filled slots, in the order of `nodes`. -/
structure Shape (c : Chain α) (nodes : List UInt32) : Prop where
  ordered : c.Ordered nodes
  tidy : ∃ free, c.arena.Tidy free
  mem_iff : ∀ i, i ∈ nodes ↔ (c.arena.content i).isSome = true
  live : c.arena.live = nodes.length

def WellFormed (c : Chain α) : Prop := ∃ nodes, c.Shape nodes

/-! ## The entries -/

theorem walk_filled {a : Arena α} {i : UInt32} {s : Slot α} {v : α} (hs : a.slots[i.toNat]? = some s)
    (hv : s.value = some v) (fuel : Nat) :
    walk a (fuel + 1) (some i) = (⟨i, s.generation⟩, v) :: walk a fuel s.next := by
  obtain ⟨_, g, _, next⟩ := s
  cases hv
  simp [walk, hs]

theorem walk_strung {a : Arena α} {p : Option UInt32} {is : List UInt32} (h : Strung a p is none) :
    ∀ fuel, is.length ≤ fuel → walk a fuel is.head? = is.filterMap a.content := by
  induction is generalizing p with
  | nil => intro fuel _; cases fuel <;> rfl
  | cons i is ih =>
    obtain ⟨⟨s, hs, -, hn⟩, ht⟩ := h
    intro fuel hf
    cases fuel with
    | zero => simp at hf
    | succ fuel =>
      obtain ⟨hs', hv⟩ := Arena.slot?_eq_some.mp hs
      obtain ⟨v, hv⟩ := Option.isSome_iff_exists.mp hv
      have hc : a.content i = some (⟨i, s.generation⟩, v) := by simp [Arena.content, hs, hv]
      rw [List.head?_cons, walk_filled hs' hv, hn, Option.or_none, ih ht fuel (by simpa using hf),
        List.filterMap_cons_some hc]

theorem Shape.length_le {c : Chain α} {nodes : List UInt32} (h : c.Shape nodes) :
    nodes.length ≤ c.arena.slots.size ∧ c.arena.slots.size ≤ Arena.maxSlots := by
  obtain ⟨free, hf⟩ := h.tidy
  have := hf.count
  have := h.live
  exact ⟨by omega, hf.bounded⟩

theorem Shape.entries_eq {c : Chain α} {nodes : List UInt32} (h : c.Shape nodes) :
    c.entries = nodes.filterMap c.arena.content := by
  rw [entries, h.ordered.head]
  exact walk_strung h.ordered.strung _ h.length_le.1

/-- Each node is an entry, so the nodes are the indices of the entries. -/
theorem Shape.indices_eq {c : Chain α} {nodes : List UInt32} (h : c.Shape nodes) :
    c.entries.map (·.1.index) = nodes := by
  rw [h.entries_eq]
  have hf := fun i (hi : i ∈ nodes) => (h.mem_iff i).mp hi
  clear h
  induction nodes with
  | nil => rfl
  | cons i nodes ih =>
    obtain ⟨p, hp⟩ := Option.isSome_iff_exists.mp (hf i (by simp))
    rw [List.filterMap_cons_some hp, List.map_cons, Arena.content_index hp, ih fun j hj => hf j (by simp [hj])]

theorem Shape.mem_entries {c : Chain α} {nodes : List UInt32} (h : c.Shape nodes) {p : SlotId × α} :
    p ∈ c.entries ↔ c.arena.content p.1.index = some p := by
  rw [h.entries_eq, List.mem_filterMap]
  constructor
  · rintro ⟨i, -, hi⟩
    rw [Arena.content_index hi]; exact hi
  · intro hp
    exact ⟨p.1.index, (h.mem_iff _).mpr (by rw [hp]; rfl), hp⟩

theorem WellFormed.mem_entries {c : Chain α} (h : c.WellFormed) {p : SlotId × α} :
    p ∈ c.entries ↔ c.arena.content p.1.index = some p :=
  h.choose_spec.mem_entries

theorem WellFormed.get?_eq_some_iff {c : Chain α} (h : c.WellFormed) {id : SlotId} {v : α} :
    c.get? id = some v ↔ (id, v) ∈ c.entries := by
  rw [h.mem_entries, get?, Arena.get?_eq_some_iff]

theorem WellFormed.indices_nodup {c : Chain α} (h : c.WellFormed) : (c.entries.map (·.1.index)).Nodup := by
  obtain ⟨nodes, h⟩ := h
  rw [h.indices_eq]
  exact h.ordered.nodup

theorem WellFormed.ids_nodup {c : Chain α} (h : c.WellFormed) : (c.entries.map (·.1)).Nodup := by
  have := h.indices_nodup
  rw [← Function.comp_def SlotId.index, ← List.map_map] at this
  exact this.of_map _

theorem WellFormed.length_eq {c : Chain α} (h : c.WellFormed) : c.length = c.entries.length := by
  obtain ⟨nodes, h⟩ := h
  rw [length, h.live, ← h.indices_eq, List.length_map]

theorem WellFormed.length_le {c : Chain α} (h : c.WellFormed) :
    c.entries.length ≤ c.arena.slots.size ∧ c.arena.slots.size ≤ Arena.maxSlots := by
  obtain ⟨nodes, h⟩ := h
  have := h.length_le
  rwa [← h.indices_eq, List.length_map] at this

theorem WellFormed.backId?_eq {c : Chain α} (h : c.WellFormed) : c.backId? = c.entries.getLast?.map (·.1) := by
  obtain ⟨nodes, h⟩ := h
  rw [backId?, h.ordered.tail, ← h.indices_eq, List.getLast?_map]
  cases hl : c.entries.getLast? with
  | none => rfl
  | some p => simp [Arena.idAt?_eq, h.mem_entries.mp (List.mem_of_getLast? hl)]

/-- Around an entry, the nodes are those of the entries around it. -/
theorem Shape.split {c : Chain α} {nodes : List UInt32} (h : c.Shape nodes) {p : SlotId × α} (hp : p ∈ c.entries) :
    ∃ l m, nodes = l ++ p.1.index :: m ∧
      c.entries.filter (·.1 ≠ p.1) = (l ++ m).filterMap c.arena.content := by
  have hc := h.mem_entries.mp hp
  obtain ⟨l, m, hn⟩ := List.append_of_mem ((h.mem_iff p.1.index).mpr (by rw [hc]; rfl))
  refine ⟨l, m, hn, ?_⟩
  have hd := h.ordered.nodup
  rw [hn] at hd
  obtain ⟨-, hm, hl⟩ := List.nodup_append.mp hd
  -- an entry of another slot has another handle
  have keep : ∀ is : List UInt32, p.1.index ∉ is →
      (is.filterMap c.arena.content).filter (·.1 ≠ p.1) = is.filterMap c.arena.content := by
    intro is hi
    refine List.filter_eq_self.mpr fun q hq => ?_
    obtain ⟨i, hi', hq⟩ := List.mem_filterMap.mp hq
    have : q.1 ≠ p.1 := fun e => hi (by rw [← e, Arena.content_index hq]; exact hi')
    simpa using this
  rw [h.entries_eq, hn, List.filterMap_append, List.filterMap_cons_some hc, List.filter_append,
    List.filter_cons_of_neg (by simp), keep l fun hx => hl _ hx _ (by simp) rfl, keep m (List.nodup_cons.mp hm).1,
    List.filterMap_append]

/-! ## Operations -/

theorem wellFormed_withCapacity (n : Nat) :
    (withCapacity n : Chain α).WellFormed ∧ (withCapacity n : Chain α).entries = [] := by
  refine ⟨⟨[], ⟨trivial, rfl, rfl, List.nodup_nil⟩, ⟨[], Arena.tidy_withCapacity n⟩, fun i => ?_, rfl⟩, rfl⟩
  simp [withCapacity, Arena.withCapacity, Arena.content, Arena.slot?]

theorem wellFormed_clear (c : Chain α) : c.clear.WellFormed ∧ c.clear.entries = [] := by
  refine ⟨⟨[], ⟨trivial, rfl, rfl, List.nodup_nil⟩, ⟨[], Arena.tidy_clear c.arena⟩, fun i => ?_, rfl⟩, rfl⟩
  simp [clear, Arena.clear, Arena.content, Arena.slot?]

theorem WellFormed.pushFront {c d : Chain α} (h : c.WellFormed) {mem : Allocator} {v : α} {id : SlotId}
    (hp : c.pushFront mem v = .ok (id, d)) : d.WellFormed ∧ d.entries = (id, v) :: c.entries := by
  obtain ⟨nodes, h⟩ := h
  obtain ⟨free, hf⟩ := h.tidy
  simp only [Chain.pushFront] at hp
  cases hi : c.arena.insert mem v with
  | error e => rw [hi] at hp; cases hp
  | ok p =>
    obtain ⟨id, b⟩ := p
    rw [hi] at hp
    simp only [Except.map, Except.ok.injEq, Prod.mk.injEq] at hp
    obtain ⟨rfl, rfl⟩ := hp
    obtain ⟨hnone, hnew, hold⟩ := Arena.insert_slot? hf hi
    obtain ⟨hfree, hlive⟩ := hf.insert hi
    have hid : id.index ∉ nodes := by
      rw [h.mem_iff, Arena.isSome_content, hnone]; simp
    have hcontent : ∀ j, j ≠ id.index → b.content j = c.arena.content j :=
      fun j hj => Arena.content_congr (hold j hj)
    have hnewc : b.content id.index = some (id, v) := by simp [Arena.content, hnew]
    have ho : Ordered { c with arena := b } nodes :=
      ⟨h.ordered.strung.frame fun j hj => hold j fun e => hid (e ▸ hj), h.ordered.head, h.ordered.tail,
        h.ordered.nodup⟩
    have hr := relinked_attachFront { c with arena := b } id.index
    have hs : Shape (attachFront { c with arena := b } id.index) (id.index :: nodes) := by
      refine ⟨ho.attachFront (by simp [hnew]) hid, ⟨_, hr.tidy _ hfree⟩, fun j => ?_, ?_⟩
      · rw [hr.content, List.mem_cons]
        by_cases e : j = id.index
        · simp [e, hnewc]
        · simp [e, hcontent j e, h.mem_iff]
      · rw [hr.live, hlive, h.live, List.length_cons]
    refine ⟨⟨_, hs⟩, ?_⟩
    rw [hs.entries_eq, h.entries_eq, List.filterMap_cons_some (by rw [hr.content]; exact hnewc)]
    congr 1
    exact List.filterMap_congr fun j hj => by rw [hr.content]; exact hcontent j fun e => hid (e ▸ hj)

/-- When a node is refused, and how the room grows. -/
theorem WellFormed.pushFront_room {c : Chain α} (h : c.WellFormed) (mem : Allocator) (v : α) :
    (c.pushFront mem v).map (·.2.arena.room) =
      if c.entries.length < c.arena.slots.size then .ok c.arena.room
      else (c.arena.reserve mem 1).map fun b => (c.arena.slots.size + 1, b.capacity) := by
  have hl : c.arena.live = c.entries.length := h.length_eq
  obtain ⟨nodes, h⟩ := h
  obtain ⟨free, hf⟩ := h.tidy
  rw [← hl]
  refine Eq.trans ?_ (Arena.insert_room hf mem v)
  simp only [Chain.pushFront]
  cases c.arena.insert mem v with
  | error e => rfl
  | ok p => exact congrArg Except.ok (relinked_attachFront { c with arena := p.2 } p.1.index).room

theorem WellFormed.moveToFront {c : Chain α} (h : c.WellFormed) {id : SlotId} {v : α} (hm : (id, v) ∈ c.entries) :
    (c.moveToFront id).1 = true ∧ (c.moveToFront id).2.WellFormed ∧
      (c.moveToFront id).2.entries = (id, v) :: c.entries.filter (·.1 ≠ id) ∧
      (c.moveToFront id).2.arena.room = c.arena.room := by
  have hcon : c.contains id = true := by
    show (c.get? id).isSome = true
    rw [h.get?_eq_some_iff.mpr hm]; rfl
  obtain ⟨nodes, h⟩ := h
  have hc := h.mem_entries.mp hm
  obtain ⟨l, m, rfl, hfilter⟩ := h.split hm
  simp only [Chain.moveToFront, hcon, if_true]
  refine ⟨trivial, ?_⟩
  rw [hfilter]
  by_cases hh : c.head = some id.index
  · -- already in front
    have hl : l = [] := by
      cases l with
      | nil => rfl
      | cons j l =>
        have hd := h.ordered.nodup
        rw [h.ordered.head] at hh
        cases hh
        simp at hd
    subst hl
    rw [if_pos hh]
    refine ⟨⟨_, h⟩, ?_, rfl⟩
    rw [h.entries_eq]
    simp [hc]
  · rw [if_neg hh]
    have hr := (relinked_unlink c id.index).trans (relinked_attachFront (c.unlink id.index) id.index)
    have hd := h.ordered.nodup
    have hi : id.index ∉ l ++ m := (List.nodup_cons.mp (List.perm_middle.nodup_iff.mp hd)).1
    have ho := h.ordered.unlink.attachFront
      (by rw [← Arena.isSome_content, (relinked_unlink c id.index).content, hc]; rfl) hi
    obtain ⟨free, hf⟩ := h.tidy
    have hs : Shape ((c.unlink id.index).attachFront id.index) (id.index :: (l ++ m)) := by
      refine ⟨ho, ⟨free, hr.tidy _ hf⟩, fun j => ?_, ?_⟩
      · rw [hr.content, ← h.mem_iff]
        exact List.perm_middle.symm.mem_iff
      · rw [hr.live, h.live]
        simp only [List.length_append, List.length_cons]
        omega
    refine ⟨⟨_, hs⟩, ?_, hr.room⟩
    rw [hs.entries_eq, List.filterMap_cons_some (by rw [hr.content]; exact hc)]
    congr 1
    exact List.filterMap_congr fun j _ => hr.content j

theorem WellFormed.remove {c : Chain α} (h : c.WellFormed) {id : SlotId} {v : α} (hm : (id, v) ∈ c.entries) :
    ∃ d, c.remove id = some (v, d) ∧ d.WellFormed ∧ d.entries = c.entries.filter (·.1 ≠ id) ∧
      d.arena.room = c.arena.room := by
  have hcon : c.contains id = true := by
    show (c.get? id).isSome = true
    rw [h.get?_eq_some_iff.mpr hm]; rfl
  obtain ⟨nodes, h⟩ := h
  have hc := h.mem_entries.mp hm
  obtain ⟨l, m, rfl, hfilter⟩ := h.split hm
  have hr := relinked_unlink c id.index
  have hd := h.ordered.nodup
  have hi : id.index ∉ l ++ m := (List.nodup_cons.mp (List.perm_middle.nodup_iff.mp hd)).1
  have ho := h.ordered.unlink
  obtain ⟨free, hf⟩ := h.tidy
  obtain ⟨b, hrem, hlive, hsize, hcap⟩ := Arena.exists_remove ((hr.content id.index).trans hc)
  obtain ⟨hnone, hold⟩ := Arena.remove_slot? hrem
  refine ⟨{ c.unlink id.index with arena := b }, by simp [Chain.remove, hcon, hrem], ?_⟩
  have hcontent : ∀ j, j ≠ id.index → b.content j = c.arena.content j :=
    fun j hj => (Arena.content_congr (hold j hj)).trans (hr.content j)
  have hs : Shape { c.unlink id.index with arena := b } (l ++ m) := by
    refine ⟨⟨ho.strung.frame fun j hj => hold j fun e => hi (e ▸ hj), ho.head, ho.tail, ho.nodup⟩,
      ⟨_, (hr.tidy _ hf).remove hrem⟩, fun j => ?_, ?_⟩
    · by_cases e : j = id.index
      · subst e
        simp [hi, Arena.content, hnone]
      · show _ ↔ (b.content j).isSome = true
        rw [hcontent j e, ← h.mem_iff]
        simp [e]
    · show b.live = _
      simp only [hlive, hr.live, h.live, List.length_append, List.length_cons]
      omega
  refine ⟨⟨_, hs⟩, ?_, ?_⟩
  · rw [hs.entries_eq, hfilter]
    exact List.filterMap_congr fun j hj => hcontent j fun e => hi (e ▸ hj)
  · rw [← hr.room]
    simp only [Arena.room, hsize, hcap]

theorem WellFormed.set {c : Chain α} (h : c.WellFormed) {id : SlotId} {v : α} (hm : (id, v) ∈ c.entries) (w : α) :
    (c.set id w).2.WellFormed ∧ (c.set id w).2.entries = c.entries.map (fun p => if p.1 = id then (id, w) else p) ∧
      (c.set id w).2.arena.room = c.arena.room := by
  obtain ⟨nodes, h⟩ := h
  have hc := h.mem_entries.mp hm
  obtain ⟨free, hf⟩ := h.tidy
  have hslots := Arena.set_slots hc w
  have hcontent := Arena.content_set hc w
  have hs : Shape (c.set id w).2 nodes := by
    refine ⟨⟨h.ordered.strung.of_links fun j _ s hj => ?_, h.ordered.head, h.ordered.tail, h.ordered.nodup⟩,
      ⟨free, hf.set hc w⟩, fun j => ?_, ?_⟩
    · show ∃ t, (c.arena.set id w).2.slot? j = some t ∧ _
      rw [hslots, hj]
      split
      · exact ⟨_, rfl, rfl, rfl⟩
      · exact ⟨s, rfl, rfl, rfl⟩
    · show _ ↔ ((c.arena.set id w).2.content j).isSome = true
      rw [hcontent, h.mem_iff]
      by_cases e : j = id.index
      · simp [e, hc]
      · simp [e]
    · show (c.arena.set id w).2.live = _
      rw [Arena.set_eq hc]; exact h.live
  refine ⟨⟨_, hs⟩, ?_, ?_⟩
  · rw [hs.entries_eq, h.entries_eq, List.map_filterMap]
    refine List.filterMap_congr fun j _ => ?_
    show (c.arena.set id w).2.content j = _
    rw [hcontent]
    by_cases e : j = id.index
    · simp [e, hc]
    · rw [if_neg e]
      cases hj : c.arena.content j with
      | none => rfl
      | some p =>
        have : p.1 ≠ id := fun hp => e (by rw [← Arena.content_index hj, hp])
        simp [this]
  · show (c.arena.set id w).2.room = _
    rw [Arena.set_eq hc]
    simp [Arena.room]

/-- A value set and then moved to the front. -/
theorem WellFormed.setFront {c : Chain α} (h : c.WellFormed) {id : SlotId} {v : α} (hm : (id, v) ∈ c.entries) (w : α) :
    ((c.set id w).2.moveToFront id).2.WellFormed ∧
      ((c.set id w).2.moveToFront id).2.entries = (id, w) :: c.entries.filter (·.1 ≠ id) ∧
      ((c.set id w).2.moveToFront id).2.arena.room = c.arena.room := by
  obtain ⟨hwf, hent, hroom⟩ := h.set hm w
  have hm' : (id, w) ∈ (c.set id w).2.entries := by
    rw [hent]
    exact List.mem_map.mpr ⟨_, hm, by simp⟩
  obtain ⟨-, hwf', hent', hroom'⟩ := hwf.moveToFront hm'
  -- setting the value changes only the node that is moved
  have hkeep : (c.set id w).2.entries.filter (·.1 ≠ id) = c.entries.filter (·.1 ≠ id) := by
    rw [hent, List.filter_map]
    refine Eq.trans (List.map_congr_left fun p hp => ?_) (List.map_id _) |>.trans (List.filter_congr fun p _ => ?_)
    · have : p.1 ≠ id := fun e => by simp [e] at hp
      simp [this]
    · by_cases e : p.1 = id <;> simp [e]
  exact ⟨hwf', by rw [hent', hkeep], hroom'.trans hroom⟩

/-! ## The check -/

theorem checkWalk_strung {a : Arena α} {p : Option UInt32} {is : List UInt32} (h : Strung a p is none) :
    ∀ room, is.length ≤ room → checkWalk a room p is.head? = .ok (is.length, is.getLast?.or p) := by
  induction is generalizing p with
  | nil => intro room _; cases room <;> rfl
  | cons i is ih =>
    obtain ⟨⟨s, hs, hp, hn⟩, ht⟩ := h
    intro room hr
    rw [Option.or_none] at hn
    cases room with
    | zero => simp at hr
    | succ room =>
      have hlast : (i :: is).getLast?.or p = is.getLast?.or (some i) := by
        rw [List.getLast?_cons]
        cases is.getLast? <;> rfl
      have := ih ht room (by simpa using hr)
      rw [List.head?_cons, checkWalk]
      simp only [hs, hp, hn, this, hlast, ne_eq, not_true_eq_false, if_false, Except.map, List.length_cons]

theorem WellFormed.check_eq {c : Chain α} (h : c.WellFormed) : c.check = .ok () := by
  obtain ⟨nodes, h⟩ := h
  obtain ⟨free, hf⟩ := h.tidy
  have hw := checkWalk_strung h.ordered.strung nodes.length (Nat.le_refl _)
  have hc := hf.count
  rw [h.live] at hc
  have he : nodes.head?.isSome = nodes.getLast?.isSome := by cases nodes <;> simp [List.getLast?_cons]
  have hz : ¬ (nodes.head? = none ∧ nodes.length ≠ 0) := by cases nodes <;> simp
  simp only [check, h.ordered.head, h.ordered.tail, hf.freeStack_eq, h.live, hw, he, hz, Option.or_none, bind,
    Except.bind, hc, ne_eq, not_true_eq_false, if_false]
  rfl

end Chain

end Recency

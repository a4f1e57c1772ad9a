import Recency.Chain.Basic
import Recency.Proofs.Arena.Slots
/-
  Recency.Proofs.Chain.Links — taking a node out of a chain and putting one in front.

  `Ordered c nodes` says that the links of `c` pass through the slots `nodes`, in both
  directions, and that `head` and `tail` name the ends. A splice changes the links of at
  most three slots; the stretches of the chain on either side of it are framed by
  `Strung.frame`, and `strung_append` takes them apart and puts them together.

  - `Ordered.unlink`: without the node at `i`, the others keep their order.
  - `Ordered.attachFront`: the new node comes first.
  - `relinked_unlink` / `relinked_attachFront`: no value, generation or free slot changes.
-/

namespace Recency

variable {α : Type}

/-! ## Changes of links alone -/

/-- `b` differs from `a` in the links of filled slots only. -/
structure Arena.Relinked (a b : Arena α) : Prop where
  content : ∀ i, b.content i = a.content i
  tidy : ∀ free, a.Tidy free → b.Tidy free
  live : b.live = a.live
  size : b.slots.size = a.slots.size
  capacity : b.capacity = a.capacity

theorem Arena.Relinked.refl (a : Arena α) : a.Relinked a := ⟨fun _ => rfl, fun _ h => h, rfl, rfl, rfl⟩

theorem Arena.Relinked.trans {a b c : Arena α} (h : a.Relinked b) (g : b.Relinked c) : a.Relinked c where
  content i := (g.content i).trans (h.content i)
  tidy free ha := g.tidy free (h.tidy free ha)
  live := g.live.trans h.live
  size := g.size.trans h.size
  capacity := g.capacity.trans h.capacity

theorem Arena.relinked_modifySlot (a : Arena α) (i : UInt32) {f : Slot α → Slot α} (hf : Relinks f) :
    a.Relinked (a.modifySlot i f) where
  content j := content_modifySlot a i j hf
  tidy _ h := h.modifySlot i hf
  live := rfl
  size := by simp [modifySlot]
  capacity := rfl

namespace Chain

open Arena (Relinks slot?_modifySlot slot?_modifySlot_ne relinked_modifySlot)

/-- Makes the slot that `link` names, if any, lead on to `next`. -/
def setNext (a : Arena α) (link next : Option UInt32) : Arena α :=
  match link with
  | none => a
  | some i => a.modifySlot i ({ · with next })

/-- Makes the slot that `link` names, if any, lead back to `prev`. -/
def setPrev (a : Arena α) (link prev : Option UInt32) : Arena α :=
  match link with
  | none => a
  | some i => a.modifySlot i ({ · with prev })

theorem relinks_next (next : Option UInt32) : Relinks fun s : Slot α => { s with next } := fun _ => ⟨rfl, rfl⟩
theorem relinks_prev (prev : Option UInt32) : Relinks fun s : Slot α => { s with prev } := fun _ => ⟨rfl, rfl⟩
theorem relinks_both (prev next : Option UInt32) : Relinks fun s : Slot α => { s with prev, next } :=
  fun _ => ⟨rfl, rfl⟩

theorem relinked_setNext (a : Arena α) (link next : Option UInt32) : a.Relinked (setNext a link next) := by
  cases link with
  | none => exact .refl a
  | some i => exact relinked_modifySlot a i (relinks_next next)

theorem relinked_setPrev (a : Arena α) (link prev : Option UInt32) : a.Relinked (setPrev a link prev) := by
  cases link with
  | none => exact .refl a
  | some i => exact relinked_modifySlot a i (relinks_prev prev)

theorem slot?_setNext (a : Arena α) {link : Option UInt32} (next : Option UInt32) {j : UInt32} (h : link ≠ some j) :
    (setNext a link next).slot? j = a.slot? j := by
  cases link with
  | none => rfl
  | some i => exact slot?_modifySlot_ne a fun e => h (e ▸ rfl)

theorem slot?_setPrev (a : Arena α) {link : Option UInt32} (prev : Option UInt32) {j : UInt32} (h : link ≠ some j) :
    (setPrev a link prev).slot? j = a.slot? j := by
  cases link with
  | none => rfl
  | some i => exact slot?_modifySlot_ne a fun e => h (e ▸ rfl)

/-! ## Stretches of a chain -/

/-- The filled slots `is` lead to each other in this order; the first leads back to `p`
    and the last on to `n`. -/
def Strung (a : Arena α) : Option UInt32 → List UInt32 → Option UInt32 → Prop
  | _, [], _ => True
  | p, i :: is, n => (∃ s, a.slot? i = some s ∧ s.prev = p ∧ s.next = is.head?.or n) ∧ Strung a (some i) is n

/-- A stretch depends on the links of its slots only. -/
theorem Strung.of_links {a b : Arena α} {p n : Option UInt32} {is : List UInt32} (h : Strung a p is n)
    (he : ∀ i ∈ is, ∀ s, a.slot? i = some s → ∃ t, b.slot? i = some t ∧ t.prev = s.prev ∧ t.next = s.next) :
    Strung b p is n := by
  induction is generalizing p with
  | nil => trivial
  | cons i is ih =>
    obtain ⟨⟨s, hs, hp, hn⟩, hr⟩ := h
    obtain ⟨t, ht, hp', hn'⟩ := he i (by simp) s hs
    exact ⟨⟨t, ht, hp'.trans hp, hn'.trans hn⟩, ih hr fun j hj => he j (by simp [hj])⟩

theorem Strung.frame {a b : Arena α} {p n : Option UInt32} {is : List UInt32} (h : Strung a p is n)
    (he : ∀ i ∈ is, b.slot? i = a.slot? i) : Strung b p is n :=
  h.of_links fun i hi s hs => ⟨s, (he i hi).trans hs, rfl, rfl⟩

theorem strung_append (a : Arena α) (p n : Option UInt32) (l m : List UInt32) :
    Strung a p (l ++ m) n ↔ Strung a p l (m.head?.or n) ∧ Strung a (l.getLast?.or p) m n := by
  induction l generalizing p with
  | nil => simp [Strung]
  | cons i l ih =>
    have hl : (i :: l).getLast?.or p = l.getLast?.or (some i) := by
      rw [List.getLast?_cons]
      cases l.getLast? <;> rfl
    rw [List.cons_append, Strung, ih, Strung, hl, List.head?_append, Option.or_assoc, and_assoc]

/-- The last slot of a stretch can be made to lead elsewhere. -/
theorem Strung.setNext {a : Arena α} {p n : Option UInt32} {is : List UInt32} (h : Strung a p is n) (hd : is.Nodup)
    (next : Option UInt32) : Strung (setNext a is.getLast? next) p is next := by
  rcases List.eq_nil_or_concat is with rfl | ⟨l, i, rfl⟩
  · trivial
  rw [List.concat_eq_append] at h hd ⊢
  rw [List.getLast?_concat]
  obtain ⟨hl, ⟨s, hs, hp, -⟩, -⟩ := (strung_append ..).mp h
  have hi : i ∉ l := fun hm => (List.nodup_append.mp hd).2.2 i hm i (by simp) rfl
  refine (strung_append ..).mpr ⟨hl.frame fun j hj => slot?_setNext a next fun e => ?_, ⟨?_, trivial⟩⟩
  · cases e; exact hi hj
  · exact ⟨{ s with next }, by simp [Chain.setNext, slot?_modifySlot a i i (relinks_next next), hs], hp, by simp⟩

/-- The first slot of a stretch can be made to lead back elsewhere. -/
theorem Strung.setPrev {a : Arena α} {p n : Option UInt32} {is : List UInt32} (h : Strung a p is n) (hd : is.Nodup)
    (prev : Option UInt32) : Strung (setPrev a is.head? prev) prev is n := by
  cases is with
  | nil => trivial
  | cons i is =>
    obtain ⟨⟨s, hs, -, hn⟩, ht⟩ := h
    have hi := (List.nodup_cons.mp hd).1
    refine ⟨⟨{ s with prev }, by simp [Chain.setPrev, slot?_modifySlot a i i (relinks_prev prev), hs], rfl, hn⟩, ?_⟩
    refine ht.frame fun j hj => slot?_setPrev a prev fun e => ?_
    cases e; exact hi hj

/-! ## The order of a chain -/

structure Ordered (c : Chain α) (nodes : List UInt32) : Prop where
  strung : Strung c.arena none nodes none
  head : c.head = nodes.head?
  tail : c.tail = nodes.getLast?
  nodup : nodes.Nodup

theorem unlink_eq {c : Chain α} {i : UInt32} {s : Slot α} (h : c.arena.slot? i = some s) :
    c.unlink i =
      { arena := (setPrev (setNext c.arena s.prev s.next) s.next s.prev).modifySlot i
          ({ · with prev := none, next := none })
        head := if s.prev = none then s.next else c.head
        tail := if s.next = none then s.prev else c.tail } := by
  unfold unlink
  simp only [h]
  cases s.prev <;> cases s.next <;> rfl

theorem relinked_unlink (c : Chain α) (i : UInt32) : c.arena.Relinked (c.unlink i).arena := by
  cases h : c.arena.slot? i with
  | none => simp only [unlink, h]; exact .refl _
  | some s =>
    rw [unlink_eq h]
    exact ((relinked_setNext c.arena s.prev s.next).trans (relinked_setPrev _ s.next s.prev)).trans
      (relinked_modifySlot _ i (relinks_both none none))

/-- Without the node at `i`, the others keep their order. -/
theorem Ordered.unlink {c : Chain α} {l m : List UInt32} {i : UInt32} (h : c.Ordered (l ++ i :: m)) :
    (c.unlink i).Ordered (l ++ m) := by
  obtain ⟨hl, ⟨s, hs, hp, hn⟩, hm⟩ := (strung_append ..).mp h.strung
  rw [Option.or_none] at hp hn
  obtain ⟨hdl, hdm, hd⟩ := List.nodup_append.mp h.nodup
  obtain ⟨him, hdm⟩ := List.nodup_cons.mp hdm
  have hil : i ∉ l := fun hx => hd i hx i (by simp) rfl
  have hlm : ∀ j ∈ l, j ∉ m := fun j hj hm => hd j hj j (List.mem_cons_of_mem _ hm) rfl
  rw [unlink_eq hs, hp, hn]
  refine ⟨(strung_append ..).mpr ⟨?_, ?_⟩, ?_, ?_, ?_⟩
  · -- the front stretch sees the change of its last slot only
    rw [Option.or_none]
    refine (hl.setNext hdl m.head?).frame fun j hj => ?_
    have hne : j ≠ i := fun e => hil (e ▸ hj)
    rw [slot?_modifySlot_ne _ hne, slot?_setPrev _ _ fun e => hlm j hj (List.mem_of_mem_head? e)]
  · -- the rear stretch sees the change of its first slot only
    rw [Option.or_none]
    have hm' : Strung (Chain.setNext c.arena l.getLast? m.head?) (some i) m none :=
      hm.frame fun j hj => slot?_setNext _ _ fun e => hlm j (List.mem_of_getLast? e) hj
    exact (hm'.setPrev hdm l.getLast?).frame fun j hj => slot?_modifySlot_ne _ fun e => him (e ▸ hj)
  · rw [h.head]
    cases l <;> simp [List.getLast?_cons]
  · rw [h.tail]
    cases m <;> simp [List.getLast?_cons]
  · exact List.nodup_append.mpr ⟨hdl, hdm, fun a ha b hb e => hlm a ha (by rw [e]; exact hb)⟩

theorem attachFront_eq {c : Chain α} {i : UInt32} (h : (c.arena.slot? i).isSome = true) :
    c.attachFront i =
      { arena := setPrev (c.arena.modifySlot i ({ · with prev := none, next := c.head })) c.head (some i)
        head := some i
        tail := if c.head = none then some i else c.tail } := by
  obtain ⟨s, hs⟩ := Option.isSome_iff_exists.mp h
  unfold attachFront
  simp only [hs]
  cases c.head <;> rfl

theorem relinked_attachFront (c : Chain α) (i : UInt32) : c.arena.Relinked (c.attachFront i).arena := by
  cases h : c.arena.slot? i with
  | none => simp only [attachFront, h]; exact .refl _
  | some s =>
    rw [attachFront_eq (by rw [h]; rfl)]
    exact (relinked_modifySlot _ i (relinks_both none c.head)).trans (relinked_setPrev _ c.head (some i))

theorem Ordered.attachFront {c : Chain α} {nodes : List UInt32} {i : UInt32} (h : c.Ordered nodes)
    (hs : (c.arena.slot? i).isSome = true) (hi : i ∉ nodes) : (c.attachFront i).Ordered (i :: nodes) := by
  rw [attachFront_eq hs, h.head, h.tail]
  refine ⟨⟨?_, ?_⟩, rfl, ?_, List.nodup_cons.mpr ⟨hi, h.nodup⟩⟩
  · obtain ⟨s, hs⟩ := Option.isSome_iff_exists.mp hs
    refine ⟨{ s with prev := none, next := nodes.head? }, ?_, rfl, by simp⟩
    rw [slot?_setPrev _ _ fun e => hi (List.mem_of_mem_head? e), slot?_modifySlot _ _ _ (relinks_both _ _)]
    simp [hs]
  · have h' : Strung (c.arena.modifySlot i ({ · with prev := none, next := nodes.head? })) none nodes none :=
      h.strung.frame fun j hj => slot?_modifySlot_ne _ fun e => hi (e ▸ hj)
    exact h'.setPrev h.nodup (some i)
  · cases nodes <;> simp [List.getLast?_cons]

end Chain

end Recency

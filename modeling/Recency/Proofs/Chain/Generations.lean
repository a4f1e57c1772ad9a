import Recency.Proofs.Arena.Generations
import Recency.Proofs.Chain.Sequence
/-
  Recency.Proofs.Chain.Generations — which handles of a chain still resolve.

  A chain issues a handle with each node pushed and releases it with each node removed or
  popped. In between it only changes links, and no change of links touches a stamp. So a
  chain is dated by its history as an arena is (`dated_applyAll`), and its handles are
  refused and come round in the same way: `stale_until_wrap` says it of both.
-/

namespace Recency

variable {α : Type}

namespace Chain

open Arena (Dated)

/-! ## Changes of links -/

theorem stamp_setNext (a : Arena α) (link next : Option UInt32) (j : UInt32) :
    (setNext a link next).stamp j = a.stamp j := by
  cases link with
  | none => rfl
  | some i => exact Arena.stamp_modifySlot a i j (relinks_next next)

theorem stamp_setPrev (a : Arena α) (link prev : Option UInt32) (j : UInt32) :
    (setPrev a link prev).stamp j = a.stamp j := by
  cases link with
  | none => rfl
  | some i => exact Arena.stamp_modifySlot a i j (relinks_prev prev)

theorem stamp_unlink (c : Chain α) (i j : UInt32) : (c.unlink i).arena.stamp j = c.arena.stamp j := by
  cases hs : c.arena.slot? i with
  | none => simp only [unlink, hs]
  | some s => rw [unlink_eq hs, Arena.stamp_modifySlot _ i j (relinks_both none none), stamp_setPrev, stamp_setNext]

theorem stamp_attachFront (c : Chain α) (i j : UInt32) : (c.attachFront i).arena.stamp j = c.arena.stamp j := by
  cases hs : c.arena.slot? i with
  | none => simp only [attachFront, hs]
  | some s =>
    rw [attachFront_eq (by rw [hs]; rfl), stamp_setPrev, Arena.stamp_modifySlot _ i j (relinks_both none c.head)]

/-! ## Dated by a history -/

section Dated

variable {c d : Chain α} {h : List Mark} (hd : c.arena.Dated h)
include hd

theorem dated_unlink (i : UInt32) : (c.unlink i).arena.Dated h := hd.congr (stamp_unlink c i)

theorem dated_attachFront (i : UInt32) : (c.attachFront i).arena.Dated h := hd.congr (stamp_attachFront c i)

theorem dated_pushFront (hw : c.WellFormed) {mem : Allocator} {v : α} {id : SlotId}
    (hp : c.pushFront mem v = .ok (id, d)) : d.arena.Dated (.issued id :: h) := by
  obtain ⟨nodes, hs⟩ := hw
  obtain ⟨free, ht⟩ := hs.tidy
  simp only [pushFront] at hp
  cases hi : c.arena.insert mem v with
  | error e => rw [hi] at hp; cases hp
  | ok p =>
    rw [hi] at hp
    cases hp
    exact dated_attachFront (c := { c with arena := p.2 }) (hd.insert ht hi) _

theorem dated_moveToFront (id : SlotId) : (c.moveToFront id).2.arena.Dated h := by
  simp only [moveToFront]
  split
  · split
    · exact hd
    · exact dated_attachFront (dated_unlink hd _) _
  · exact hd

theorem dated_remove {id : SlotId} {v : α} (hr : c.remove id = some (v, d)) : d.arena.Dated (.released id :: h) := by
  simp only [remove] at hr
  split at hr
  · obtain ⟨⟨w, b⟩, hb, he⟩ := Option.map_eq_some_iff.mp hr
    cases he
    exact (dated_unlink hd _).remove hb
  · cases hr

theorem dated_popBack {id : SlotId} {v : α} (hp : c.popBack = some ((id, v), d)) :
    d.arena.Dated (.released id :: h) := by
  obtain ⟨id', -, hmap⟩ := Option.bind_eq_some_iff.mp hp
  obtain ⟨⟨w, e⟩, hr, he⟩ := Option.map_eq_some_iff.mp hmap
  cases he
  exact dated_remove hd hr

end Dated

/-! ## Histories -/

def Op.mark? : Op α → Reply α → Option Mark
  | .pushFront _, .pushed id => some (.issued id)
  | .popBack, .popped (some (id, _)) => some (.released id)
  | .remove id, .value (some _) => some (.released id)
  | .clear, _ => some .cleared
  | _, _ => none

/-- What operations do to the handles of `c`. -/
def history (ops : List (Allocator × Op α)) (c : Chain α) : List Mark := Mark.trace apply Op.mark? ops c

theorem dated_apply {c : Chain α} {h : List Mark} (hd : c.arena.Dated h) (hw : c.WellFormed) (mem : Allocator)
    (op : Op α) : (apply mem op c).2.arena.Dated ((op.mark? (apply mem op c).1).toList ++ h) := by
  cases op with
  | pushFront v =>
    cases hp : c.pushFront mem v with
    | error e => simp only [apply, hp]; exact hd
    | ok p => simp only [apply, hp]; exact dated_pushFront hd hw hp
  | moveToFront id => exact dated_moveToFront hd id
  | popBack =>
    cases hp : c.popBack with
    | none => simp only [apply, hp]; exact hd
    | some p => simp only [apply, hp]; exact dated_popBack hd hp
  | remove id =>
    cases hr : c.remove id with
    | none => simp only [apply, hr]; exact hd
    | some p => simp only [apply, hr]; exact dated_remove hd hr
  | get id => exact hd
  | set id w => exact hd.congr (Arena.stamp_set c.arena id w)
  | reserve n =>
    cases hr : c.arena.reserve mem n with
    | error e => simp only [apply, Chain.reserve, hr, Except.map]; exact hd
    | ok b => simp only [apply, Chain.reserve, hr, Except.map]; exact hd.reserve hr
  | clear => exact hd.clear

theorem dated_applyAll {c : Chain α} {h : List Mark} (hd : c.arena.Dated h) (hc : c.Kept)
    (ops : List (Allocator × Op α)) : (applyAll ops c).arena.Dated (history ops c ++ h) := by
  induction ops generalizing c h with
  | nil => exact hd
  | cons p ops ih =>
    obtain ⟨mem, op⟩ := p
    have := ih (dated_apply hd hc.wellFormed mem op) (hc.apply mem op).1
    rwa [← List.append_assoc] at this

/-! ## Uses of a handle -/

/-- Each way of using `id` succeeds just when `p`. -/
structure Answers (c : Chain α) (id : SlotId) (p : Prop) : Prop where
  get : (c.get? id).isSome = true ↔ p
  set : ∀ v, (c.set id v).1.isSome = true ↔ p
  contains : c.contains id = true ↔ p
  remove : (c.remove id).isSome = true ↔ p
  moveToFront : (c.moveToFront id).1 = true ↔ p

/-- A node is removed when there is one. -/
theorem isSome_remove (c : Chain α) (id : SlotId) : (c.remove id).isSome = c.contains id := by
  unfold remove
  split
  case isTrue h =>
    have hget : (c.unlink id.index).arena.get? id = c.arena.get? id :=
      Arena.get?_congr ((relinked_unlink c id.index).content id.index)
    rw [Option.isSome_map, Arena.remove, Option.isSome_map, hget]
    rfl
  case isFalse h => rw [Option.isSome_none, Bool.eq_false_iff.mpr h]

theorem moveToFront_fst (c : Chain α) (id : SlotId) : (c.moveToFront id).1 = c.contains id := by
  unfold moveToFront
  split
  case isTrue h => exact h.symm
  case isFalse h => exact (Bool.eq_false_iff.mpr h).symm

theorem answers_of_dated {c : Chain α} {h : List Mark} (hd : c.arena.Dated h) {id : SlotId} {p : Prop}
    (hp : Mark.stamp id.index h = (id.generation, true) ↔ p) : c.Answers id p where
  get := (hd.answers hp).get
  set := (hd.answers hp).set
  contains := (hd.answers hp).contains
  remove := by rw [isSome_remove]; exact (hd.answers hp).contains
  moveToFront := by rw [moveToFront_fst]; exact (hd.answers hp).contains

/-- Some next operation makes `id` resolve, which does not. -/
def Wakes (c : Chain α) (id : SlotId) : Prop :=
  c.get? id = none ∧ ∃ mem op, ((apply mem op c).2.get? id).isSome = true

theorem history_tells (n : Nat) (ops : List (Allocator × Op α)) :
    let c := applyAll ops (withCapacity n)
    Mark.Tells (history ops (withCapacity n)) (fun i => (c.arena.slot? i).isSome = true) c.Answers c.Wakes := by
  intro c
  have hc : c.Kept := (kept_withCapacity n).applyAll ops
  have hd : c.arena.Dated (history ops (withCapacity n)) := by
    simpa using dated_applyAll (Arena.dated_withCapacity n) (kept_withCapacity n) ops
  exact hd.tells (fun id p hp => answers_of_dated hd hp) fun id hw =>
    let ⟨hnone, mem, op, hsome⟩ := hw
    hd.issued_next (dated_apply hd hc.wellFormed mem op) hnone hsome

end Chain

/-- Handles are refused up to the wrap of their generation, by arenas and by chains. After any
    history, with what it did to handles read off as marks: each handle bears the number of
    releases its slot had had, mod 2^32; it resolves, for every use, just when its slot is
    filled and that number is the same again; so it takes 2^32 releases until it is issued or
    resolves once more. -/
theorem stale_until_wrap (n : Nat) :
    (∀ ops : List (Allocator × Arena.Op α),
      let a := (Arena.applyAll ops (Arena.withCapacity n)).2
      Mark.Tells (Arena.history ops (Arena.withCapacity n)) (fun i => (a.slot? i).isSome = true) a.Answers a.Wakes) ∧
    ∀ ops : List (Allocator × Chain.Op α),
      let c := Chain.applyAll ops (Chain.withCapacity n)
      Mark.Tells (Chain.history ops (Chain.withCapacity n)) (fun i => (c.arena.slot? i).isSome = true) c.Answers
        c.Wakes :=
  ⟨Arena.history_tells n, Chain.history_tells n⟩

end Recency

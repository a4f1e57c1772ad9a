import Mathlib.Data.List.Perm.Basic
import Recency.Proofs.Arena.Slots
/-
  Recency.Proofs.Arena.Stock — every history of an arena is one of a map and a stack.

  A history is a list of operations, with handles that may be live, stale or made up, and
  an allocator that may refuse at each of them. The links of filled slots belong to
  whoever builds on the arena, so a history may write them at will (`Op.link`).

  A stock is what the arena stands for: which handles have which values, and the free
  indices, last freed first. `Follows` says what each operation does to a stock. After any
  history the arena reads as the stock that the history has led to (`Reads`,
  `applyAll_follows`), and none of its counts has left its range.
-/

namespace Recency.Arena

variable {α : Type}

/-! ## Operations as data -/

inductive Op (α : Type) where
  | insert (value : α)
  | remove (id : SlotId)
  | set (id : SlotId) (value : α)
  | reserve (additional : Nat)
  | clear
  /-- Writes the links of the slot at `i`, if it is filled. -/
  | link (i : UInt32) (prev next : Option UInt32)
  deriving DecidableEq, Repr

inductive Reply (α : Type) where
  | inserted (id : SlotId)
  | refused (e : ArenaError)
  | value (v : Option α)
  | done
  deriving DecidableEq, Repr

/-- There was no such handle, or no memory. -/
def Reply.failed : Reply α → Bool
  | .refused _ | .value none => true
  | _ => false

/-- Carries out an operation while the allocator is as `mem` says. -/
def apply (mem : Allocator) (op : Op α) (a : Arena α) : Reply α × Arena α :=
  match op with
  | .insert v =>
    match a.insert mem v with
    | .error e => (.refused e, a)
    | .ok (id, b) => (.inserted id, b)
  | .remove id =>
    match a.remove id with
    | none => (.value none, a)
    | some (v, b) => (.value (some v), b)
  | .set id v => (.value (a.set id v).1, (a.set id v).2)
  | .reserve additional =>
    match a.reserve mem additional with
    | .error e => (.refused e, a)
    | .ok b => (.done, b)
  | .clear => (.done, a.clear)
  | .link i prev next => (.done, a.modifySlot i ({ · with prev, next }))

/-- Carries out operations in turn; the replies, and the arena left. -/
def applyAll : List (Allocator × Op α) → Arena α → List (Reply α) × Arena α
  | [], a => ([], a)
  | (mem, op) :: ops, a =>
    let (reply, a) := apply mem op a
    let (replies, a) := applyAll ops a
    (reply :: replies, a)

/-! ## Stocks -/

structure Stock (α : Type) where
  /-- The value of each handle that has one. -/
  held : SlotId → Option α
  /-- Last freed first. -/
  free : List UInt32
  /-- How many slots there are, filled or free. -/
  slots : Nat

namespace Stock

def empty : Stock α := ⟨fun _ => none, [], 0⟩

/-- Gives `id` a value, or none. -/
def put (s : Stock α) (id : SlotId) (v : Option α) : SlotId → Option α := fun id' => if id' = id then v else s.held id'

end Stock

/-- Why room for `wanted` slots is refused. -/
def Refused (mem : Allocator) (wanted : Nat) (e : ArenaError) : Prop :=
  e = .capacityOverflow ∧ maxSlots < wanted ∨ e = .allocFailed wanted ∧ mem = .refuses

/-- What an operation does to a stock, while the allocator is as `mem` says. -/
inductive Follows (mem : Allocator) (s : Stock α) : Op α → Reply α → Stock α → Prop
  /-- The slot freed last is filled. It held nothing, under whatever handle. -/
  | reused {i : UInt32} {free : List UInt32} (g : UInt32) (v : α) :
      s.free = i :: free → (∀ g', s.held ⟨i, g'⟩ = none) →
        Follows mem s (.insert v) (.inserted ⟨i, g⟩) ⟨s.put ⟨i, g⟩ (some v), free, s.slots⟩
  /-- With no slot free there is one more, and its index is the number of those before it. -/
  | appended {i : UInt32} (v : α) :
      s.free = [] → i.toNat = s.slots → s.slots < maxSlots → (∀ g', s.held ⟨i, g'⟩ = none) →
        Follows mem s (.insert v) (.inserted ⟨i, 0⟩) ⟨s.put ⟨i, 0⟩ (some v), [], s.slots + 1⟩
  | insertRefused (v : α) {e : ArenaError} :
      s.free = [] → Refused mem (s.slots + 1) e → Follows mem s (.insert v) (.refused e) s
  | removed {id : SlotId} {v : α} :
      s.held id = some v →
        Follows mem s (.remove id) (.value (some v)) ⟨s.put id none, id.index :: s.free, s.slots⟩
  | notRemoved {id : SlotId} : s.held id = none → Follows mem s (.remove id) (.value none) s
  | set {id : SlotId} {v : α} (w : α) :
      s.held id = some v → Follows mem s (.set id w) (.value (some v)) ⟨s.put id (some w), s.free, s.slots⟩
  | notSet {id : SlotId} (w : α) : s.held id = none → Follows mem s (.set id w) (.value none) s
  | reserved (n : Nat) : Follows mem s (.reserve n) .done s
  | reserveRefused {n : Nat} {e : ArenaError} :
      Refused mem (s.slots + n) e → Follows mem s (.reserve n) (.refused e) s
  | cleared : Follows mem s .clear .done .empty
  | linked (i : UInt32) (prev next : Option UInt32) : Follows mem s (.link i prev next) .done s

/-- What operations do to a stock, one after the other. -/
inductive FollowsAll : Stock α → List (Allocator × Op α) → List (Reply α) → Stock α → Prop
  | nil (s : Stock α) : FollowsAll s [] [] s
  | cons {s s' s'' : Stock α} {mem : Allocator} {op : Op α} {reply : Reply α} {ops : List (Allocator × Op α)}
      {replies : List (Reply α)} :
      Follows mem s op reply s' → FollowsAll s' ops replies s'' →
        FollowsAll s ((mem, op) :: ops) (reply :: replies) s''

/-! ## What an arena reads as -/

/-- However it is read, `a` is the stock `s`. Any fuel that suffices for the free slots
    shows that following their links ends by itself. -/
structure Reads (a : Arena α) (s : Stock α) : Prop where
  get : ∀ id, a.get? id = s.held id
  contains : ∀ id, a.contains id = (s.held id).isSome
  mem_entries : ∀ id v, (id, v) ∈ a.entries ↔ s.held id = some v
  by_index : a.entries.Pairwise fun p q => p.1.index < q.1.index
  live : a.live = a.entries.length
  slots : a.slots.size = s.slots
  count : a.live + s.free.length = s.slots
  bounded : s.slots ≤ maxSlots
  follow : ∀ fuel, s.free.length ≤ fuel → a.follow fuel a.freeHead = s.free
  free_nodup : s.free.Nodup
  mem_free : ∀ i, i ∈ s.free ↔ ∃ slot, a.slots[i.toNat]? = some slot ∧ slot.value = none
  in_bounds : ∀ i ∈ a.freeHead.toList ++ s.free, i.toNat < a.slots.size

/-- The stock that an arena with the free slots `free` stands for. -/
def stock (a : Arena α) (free : List UInt32) : Stock α := ⟨a.get?, free, a.slots.size⟩

variable {a b : Arena α} {free : List UInt32}

theorem mem_entries_iff (hb : a.slots.size ≤ maxSlots) (id : SlotId) (v : α) :
    (id, v) ∈ a.entries ↔ a.get? id = some v := by
  obtain ⟨i, g⟩ := id
  unfold entries get?
  rw [List.mem_filterMap]
  constructor
  · rintro ⟨⟨s, n⟩, hm, hs⟩
    have hn : a.slots[n]? = some s := by simpa using List.mem_zipIdx_iff_getElem?.mp hm
    have hlt := (Array.getElem?_eq_some_iff.mp hn).1
    have hidx : (UInt32.ofNat n).toNat = n :=
      UInt32.toNat_ofNat_of_lt' (Nat.lt_of_lt_of_le hlt (Nat.le_trans hb (by decide)))
    obtain ⟨w, hw, he⟩ := Option.map_eq_some_iff.mp hs
    cases he
    simp [hidx, hn, hw, Option.filter]
  · intro h
    obtain ⟨s, hs, hv⟩ := Option.bind_eq_some_iff.mp h
    obtain ⟨hs, hg⟩ := Option.filter_eq_some_iff.mp hs
    refine ⟨(s, i.toNat), List.mem_zipIdx_iff_getElem?.mpr (by simpa using hs), ?_⟩
    show s.value.map (fun x => (SlotId.mk (UInt32.ofNat i.toNat) s.generation, x)) = _
    rw [hv, UInt32.ofNat_toNat, of_decide_eq_true hg]
    rfl

theorem entries_by_index (hb : a.slots.size ≤ maxSlots) :
    a.entries.Pairwise fun p q => p.1.index < q.1.index := by
  have hidx : a.slots.toList.zipIdx.Pairwise fun p q => p.2 < q.2 := by
    have := List.pairwise_lt_range' (s := 0) (n := a.slots.toList.length) 1
    rwa [← List.zipIdx_map_snd, List.pairwise_map] at this
  unfold entries
  rw [List.pairwise_filterMap]
  refine hidx.imp_of_mem ?_
  intro p q _ hq hlt x hx y hy
  obtain ⟨v, -, rfl⟩ := Option.map_eq_some_iff.mp hx
  obtain ⟨w, -, rfl⟩ := Option.map_eq_some_iff.mp hy
  have hlast : q.2 < a.slots.size := by
    have := (List.getElem?_eq_some_iff.mp (List.mem_zipIdx_iff_getElem?.mp hq)).1
    simpa using this
  have hmax : maxSlots < 2 ^ 32 := by decide
  show UInt32.ofNat p.2 < UInt32.ofNat q.2
  rw [UInt32.lt_iff_toNat_lt, UInt32.toNat_ofNat_of_lt' (Nat.lt_trans (by omega : p.2 < maxSlots) (by decide)),
    UInt32.toNat_ofNat_of_lt' (Nat.lt_of_lt_of_le hlast (Nat.le_trans hb (by decide)))]
  exact hlt

namespace Tidy

/-- The free slots are those of the stack. -/
theorem mem_free (h : a.Tidy free) (i : UInt32) : i ∈ free ↔ ∃ s, a.slots[i.toNat]? = some s ∧ s.value = none := by
  constructor
  · exact h.stack.free i
  · rintro ⟨s, hs, hv⟩
    exact h.complete i s hs hv

theorem top (h : a.Tidy free) {i : UInt32} (hi : a.freeHead = some i) : i ∈ free := by
  have hs := h.stack
  rw [hi] at hs
  cases free with
  | nil => cases hs
  | cons j rest =>
    obtain ⟨hj, -⟩ := hs
    cases hj
    exact List.mem_cons_self

/-- Each slot is filled or on the stack. -/
theorem length_entries (h : a.Tidy free) : a.entries.length + free.length = a.slots.size := by
  let isFree (p : Slot α × Nat) : Bool := p.1.value.isNone
  have hbelow : ∀ n, n < a.slots.size → (UInt32.ofNat n).toNat = n := fun n hn =>
    UInt32.toNat_ofNat_of_lt' (Nat.lt_of_lt_of_le hn (Nat.le_trans h.bounded (by decide)))
  have hfree : free.length = a.slots.toList.zipIdx.countP isFree := by
    have hl : (free.map UInt32.toNat).Nodup := h.nodup.map fun _ _ e => UInt32.toNat_inj.mp e
    have hr : ((a.slots.toList.zipIdx.filter isFree).map Prod.snd).Nodup := by
      refine List.Nodup.sublist (List.filter_sublist.map _) ?_
      rw [List.zipIdx_map_snd]
      exact List.nodup_range'
    have hp : (free.map UInt32.toNat).Perm ((a.slots.toList.zipIdx.filter isFree).map Prod.snd) := by
      rw [List.perm_ext_iff_of_nodup hl hr]
      intro n
      rw [List.mem_map, List.mem_map]
      constructor
      · rintro ⟨i, hi, rfl⟩
        obtain ⟨s, hs, hv⟩ := (h.mem_free i).mp hi
        refine ⟨(s, i.toNat), List.mem_filter.mpr ⟨List.mem_zipIdx_iff_getElem?.mpr (by simpa using hs), ?_⟩, rfl⟩
        show s.value.isNone = true
        rw [hv]; rfl
      · rintro ⟨⟨s, n⟩, hm, rfl⟩
        obtain ⟨hm, hv⟩ := List.mem_filter.mp hm
        have hs : a.slots[n]? = some s := by simpa using List.mem_zipIdx_iff_getElem?.mp hm
        have hidx := hbelow n (Array.getElem?_eq_some_iff.mp hs).1
        refine ⟨UInt32.ofNat n, (h.mem_free _).mpr ⟨s, by rw [hidx]; exact hs, ?_⟩, hidx⟩
        exact Option.isNone_iff_eq_none.mp hv
    rw [List.countP_eq_length_filter, ← List.length_map (f := UInt32.toNat), hp.length_eq, List.length_map]
  have hfilled : a.entries.length = a.slots.toList.zipIdx.countP fun p => ¬ isFree p := by
    unfold entries
    rw [List.length_filterMap_eq_countP]
    refine List.countP_congr fun p _ => ?_
    cases hv : p.1.value <;> simp [isFree, hv]
  have hall := List.length_eq_countP_add_countP isFree (l := a.slots.toList.zipIdx)
  rw [List.length_zipIdx, Array.length_toList] at hall
  omega

theorem reads (h : a.Tidy free) : a.Reads (a.stock free) := by
  have hcount := h.count
  have hlen := h.length_entries
  refine ⟨fun _ => rfl, fun _ => rfl, mem_entries_iff h.bounded, entries_by_index h.bounded, by omega, rfl, hcount,
    h.bounded, fun fuel hf => follow_threaded h.stack fuel hf, h.nodup, h.mem_free, ?_⟩
  have hin : ∀ i ∈ free, i.toNat < a.slots.size := by
    intro i hi
    obtain ⟨s, hs, -⟩ := (h.mem_free i).mp hi
    exact (Array.getElem?_eq_some_iff.mp hs).1
  intro i hi
  rcases List.mem_append.mp hi with hi | hi
  · exact hin i (h.top (Option.mem_toList.mp hi))
  · exact hin i hi

end Tidy

/-! ## Steps -/

theorem get?_congr {id : SlotId} (h : b.content id.index = a.content id.index) : b.get? id = a.get? id :=
  Option.ext fun v => by rw [get?_eq_some_iff, get?_eq_some_iff, h]

/-- The handles after a change of the one slot of `id`, which no other handle had. -/
theorem get?_put {id : SlotId} {v : Option α} (hid : b.content id.index = v.map (id, ·))
    (hother : ∀ j, j ≠ id.index → b.content j = a.content j)
    (halias : ∀ id', id' ≠ id → id'.index = id.index → a.get? id' = none) : b.get? = (a.stock free).put id v := by
  funext id'
  unfold Stock.put
  by_cases e : id' = id
  · rw [if_pos e, e]
    refine Option.ext fun w => ?_
    rw [get?_eq_some_iff, hid]
    cases v <;> simp
  rw [if_neg e]
  by_cases hi : id'.index = id.index
  · show b.get? id' = a.get? id'
    rw [halias id' e hi, Option.eq_none_iff_forall_not_mem]
    intro w hw
    have hc := get?_eq_some_iff.mp hw
    rw [hi, hid] at hc
    obtain ⟨x, -, hx⟩ := Option.map_eq_some_iff.mp hc
    exact e (congrArg Prod.fst hx).symm
  · exact get?_congr (hother id'.index hi)

theorem get?_of_slot? {i : UInt32} (h : a.slot? i = none) (g : UInt32) : a.get? ⟨i, g⟩ = none := by
  rw [Option.eq_none_iff_forall_not_mem]
  intro v hv
  have hc := get?_eq_some_iff.mp hv
  simp [content, h] at hc

/-- The handle of a filled slot is the only one that resolves to it. -/
theorem get?_alias {id id' : SlotId} {v : α} (h : a.get? id = some v) (hne : id' ≠ id) (hi : id'.index = id.index) :
    a.get? id' = none := by
  rw [Option.eq_none_iff_forall_not_mem]
  intro w hw
  have hc := get?_eq_some_iff.mp hw
  rw [hi, get?_eq_some_iff.mp h] at hc
  cases hc
  exact hne rfl

theorem reserve_error {mem : Allocator} {n : Nat} {e : ArenaError} (h : a.reserve mem n = .error e) :
    Refused mem (a.slots.size + n) e := by
  unfold reserve at h
  by_cases hm : maxSlots < a.slots.size + n
  · simp only [hm, if_true] at h
    cases h
    exact .inl ⟨rfl, hm⟩
  · simp only [hm, if_false] at h
    split at h
    · cases h
    · cases mem with
      | refuses => cases h; exact .inr ⟨rfl, rfl⟩
      | grants => cases h

namespace Tidy

variable (h : a.Tidy free)
include h

theorem insert_error {mem : Allocator} {v : α} {e : ArenaError} (hi : a.insert mem v = .error e) :
    free = [] ∧ Refused mem (a.slots.size + 1) e := by
  rcases insert_cases h mem v with ⟨i, rest, s, -, -, -, -, he⟩ | ⟨hfree, -, he⟩
  · rw [he] at hi
    cases hi
  · rw [he, append] at hi
    cases hr : a.reserve mem 1 with
    | ok b => rw [hr] at hi; cases hi
    | error e' =>
      rw [hr] at hi
      cases hi
      exact ⟨hfree, reserve_error hr⟩

theorem insert_follows {mem : Allocator} {v : α} {id : SlotId} (hi : a.insert mem v = .ok (id, b)) :
    Follows mem (a.stock free) (.insert v) (.inserted id) (b.stock free.tail) := by
  obtain ⟨hnone, hnew, hold⟩ := insert_slot? h hi
  have hheld : ∀ g, (a.stock free).held ⟨id.index, g⟩ = none := get?_of_slot? hnone
  have hget : b.get? = (a.stock free).put id (some v) :=
    get?_put (by simp [content, hnew]) (fun j hj => content_congr (hold j hj))
      fun id' _ hi' => by rw [← get?_of_slot? hnone id'.generation, ← hi']
  unfold stock
  rw [hget]
  rcases insert_cases h mem v with ⟨i, rest, s, hfree, -, -, -, he⟩ | ⟨hfree, -, he⟩
  · rw [he] at hi
    cases hi
    rw [hfree, Array.size_modify]
    exact .reused s.generation v rfl (hfree ▸ hheld)
  · rw [he] at hi
    obtain ⟨rfl, hlt, hb⟩ := append_ok hi
    rw [hfree, hb, Array.size_push]
    exact .appended v rfl (toNat_ofNat_size hlt) hlt (hfree ▸ hheld)

omit h in
theorem remove_follows {mem : Allocator} {v : α} {id : SlotId} (hr : a.remove id = some (v, b)) :
    Follows mem (a.stock free) (.remove id) (.value (some v)) (b.stock (id.index :: free)) := by
  have hg : a.get? id = some v := by
    obtain ⟨w, hw, he⟩ := Option.map_eq_some_iff.mp hr
    cases he
    exact hw
  obtain ⟨b', hb, -, hsize, -⟩ := exists_remove (get?_eq_some_iff.mp hg)
  rw [hr] at hb
  cases hb
  obtain ⟨hnone, hold⟩ := remove_slot? hr
  have hget : b.get? = (a.stock free).put id none :=
    get?_put (by simp [content, hnone]) (fun j hj => content_congr (hold j hj)) fun id' hne hi => get?_alias hg hne hi
  unfold stock
  rw [hget, hsize]
  exact .removed hg

omit h in
theorem set_follows {mem : Allocator} {v : α} {id : SlotId} (hg : a.get? id = some v) (w : α) :
    Follows mem (a.stock free) (.set id w) (.value (some v)) ((a.set id w).2.stock free) := by
  have hc := get?_eq_some_iff.mp hg
  have hset := content_set hc w
  have hget : (a.set id w).2.get? = (a.stock free).put id (some w) :=
    get?_put (by rw [hset, if_pos rfl]; rfl) (fun j hj => by rw [hset, if_neg hj])
      fun id' hne hi => get?_alias hg hne hi
  unfold stock
  rw [hget, set_eq hc, Array.size_modify]
  exact .set w hg

/-- A step: what the stock becomes, and that a failure changes nothing. -/
theorem apply (mem : Allocator) (op : Op α) :
    ∃ free', (apply mem op a).2.Tidy free' ∧
      Follows mem (a.stock free) op (Arena.apply mem op a).1 ((Arena.apply mem op a).2.stock free') ∧
      ((Arena.apply mem op a).1.failed = true → (Arena.apply mem op a).2 = a) := by
  cases op with
  | insert v =>
    cases hi : a.insert mem v with
    | error e =>
      obtain ⟨hfree, he⟩ := h.insert_error hi
      simp only [Arena.apply, hi]
      exact ⟨free, h, .insertRefused v hfree he, fun _ => trivial⟩
    | ok p =>
      simp only [Arena.apply, hi]
      exact ⟨free.tail, (h.insert hi).1, h.insert_follows hi, fun hf => absurd hf Bool.false_ne_true⟩
  | remove id =>
    cases hr : a.remove id with
    | none =>
      simp only [Arena.apply, hr]
      exact ⟨free, h, .notRemoved (Option.map_eq_none_iff.mp hr), fun _ => trivial⟩
    | some p =>
      simp only [Arena.apply, hr]
      exact ⟨id.index :: free, h.remove hr, remove_follows hr, fun hf => absurd hf Bool.false_ne_true⟩
  | set id w =>
    cases hg : a.get? id with
    | none =>
      have hset : a.set id w = (none, a) := by simp only [Arena.set, hg]
      simp only [Arena.apply, hset]
      exact ⟨free, h, .notSet w hg, fun _ => trivial⟩
    | some v =>
      have hc := get?_eq_some_iff.mp hg
      have hold : (a.set id w).1 = some v := congrArg Prod.fst (set_eq hc w)
      simp only [Arena.apply, hold]
      exact ⟨free, h.set hc w, set_follows hg w, fun hf => absurd hf Bool.false_ne_true⟩
  | reserve n =>
    cases hr : a.reserve mem n with
    | error e =>
      simp only [Arena.apply, hr]
      exact ⟨free, h, .reserveRefused (reserve_error hr), fun _ => trivial⟩
    | ok b =>
      simp only [Arena.apply, hr]
      rw [(reserve_ok hr).1]
      have htidy : Tidy { a with capacity := b.capacity } free := ⟨h.stack, h.nodup, h.complete, h.count, h.bounded⟩
      exact ⟨free, htidy, .reserved n, fun hf => absurd hf Bool.false_ne_true⟩
  | clear =>
    have hempty : a.clear.stock [] = .empty := by
      unfold stock
      rw [show a.clear.get? = fun _ => none from funext fun id => by simp [get?, clear]]
      rfl
    exact ⟨[], tidy_clear a, hempty ▸ .cleared, fun hf => absurd hf Bool.false_ne_true⟩
  | link i prev next =>
    have hrelinks : Relinks fun s : Slot α => { s with prev, next } := fun _ => ⟨rfl, rfl⟩
    have hsame : (a.modifySlot i fun s => { s with prev, next }).stock free = a.stock free := by
      unfold stock
      rw [show (a.modifySlot i fun s => { s with prev, next }).get? = a.get? from
        funext fun id => get?_congr (content_modifySlot a i id.index hrelinks)]
      simp [Arena.modifySlot]
    exact ⟨free, h.modifySlot i hrelinks, hsame ▸ .linked i prev next, fun hf => absurd hf Bool.false_ne_true⟩

theorem applyAll (ops : List (Allocator × Op α)) :
    ∃ free', (Arena.applyAll ops a).2.Tidy free' ∧
      FollowsAll (a.stock free) ops (Arena.applyAll ops a).1 ((Arena.applyAll ops a).2.stock free') := by
  induction ops generalizing a free with
  | nil => exact ⟨free, h, .nil _⟩
  | cons p ops ih =>
    obtain ⟨mem, op⟩ := p
    obtain ⟨free', h', hf, -⟩ := h.apply mem op
    obtain ⟨free'', h'', hfs⟩ := ih h'
    exact ⟨free'', h'', .cons hf hfs⟩

end Tidy

/-! ## The count of values -/

theorem Reads.inserted {s s' : Stock α} {mem : Allocator} {op : Op α} {id : SlotId} (h : a.Reads s) (h' : b.Reads s')
    (hf : Follows mem s op (.inserted id) s') : b.live = a.live + 1 ∧ b.live ≤ maxSlots := by
  have hc := h.count
  have hc' := h'.count
  have hb := h'.bounded
  cases hf with
  | reused g v hfree _ =>
    rw [hfree] at hc
    simp only [List.length_cons] at hc hc' hb
    omega
  | appended v hfree _ _ _ =>
    rw [hfree] at hc
    simp only [List.length_nil] at hc hc' hb
    omega

theorem Reads.removed {s s' : Stock α} {mem : Allocator} {id : SlotId} {v : α} (h : a.Reads s) (h' : b.Reads s')
    (hf : Follows mem s (.remove id) (.value (some v)) s') : b.live + 1 = a.live := by
  have hc := h.count
  have hc' := h'.count
  cases hf with
  | removed _ =>
    simp only [List.length_cons] at hc'
    omega

/-! ## Histories -/

theorem stock_withCapacity (n : Nat) : (withCapacity n : Arena α).stock [] = .empty := by
  have hget : (withCapacity n : Arena α).get? = fun _ => none := funext fun id => by simp [get?, withCapacity]
  unfold stock
  rw [hget]
  rfl

/-- After any history the arena reads as the stock that the history leads to, and each
    further operation does to it what it does to that stock. One that fails leaves the
    arena as it was; the count of values goes up and down by one, within its range. -/
theorem applyAll_follows (n : Nat) (ops : List (Allocator × Op α)) :
    let r := applyAll ops (withCapacity n : Arena α)
    ∃ s, FollowsAll .empty ops r.1 s ∧ Reads r.2 s ∧ ∀ mem op,
      (∃ s', Follows mem s op (apply mem op r.2).1 s' ∧ Reads (apply mem op r.2).2 s') ∧
      ((apply mem op r.2).1.failed = true → (apply mem op r.2).2 = r.2) ∧
      (∀ id, (apply mem op r.2).1 = .inserted id →
        (apply mem op r.2).2.live = r.2.live + 1 ∧ (apply mem op r.2).2.live ≤ maxSlots) ∧
      ∀ id v, op = .remove id → (apply mem op r.2).1 = .value (some v) → (apply mem op r.2).2.live + 1 = r.2.live := by
  intro r
  obtain ⟨free, h, hf⟩ := (tidy_withCapacity (α := α) n).applyAll ops
  rw [stock_withCapacity] at hf
  refine ⟨_, hf, h.reads, ?_⟩
  intro mem op
  obtain ⟨free', h', hop, hsame⟩ := h.apply mem op
  refine ⟨⟨_, hop, h'.reads⟩, hsame, ?_, ?_⟩
  · intro id hr
    rw [hr] at hop
    exact h.reads.inserted h'.reads hop
  · rintro id v rfl hr
    rw [hr] at hop
    exact h.reads.removed h'.reads hop

end Recency.Arena

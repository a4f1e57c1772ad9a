import Recency.Cache.Check
import Recency.Index.Lemmas
import Recency.Proofs.Chain.Order
import Recency.Proofs.Plain.Basic
/-
  Recency.Proofs.Cache.Consistent — chain, index and size tell the same entries.

  `Consistent` is what holds of a cache whenever one can look at it: the chain is well
  formed, no key is in it twice, the index maps exactly the keys in it, each to its own
  node, and the size is the number of nodes. `Steady` adds that no use of the index is
  to fail and that the bound is not zero.

  The actions that change chain, index and size are run here once and for all, from a
  steady cache: each gives the entry it should, leaves a steady cache, and does to `view`
  (the cache as a plain list) what the list cache does. Nothing later unfolds them.
-/

namespace Recency

variable {κ ν : Type}

/-! ## Running an action -/

section Run

variable {α β : Type} (c : Cache κ ν)

theorem Action.bind_apply (x : Action κ ν α) (f : α → Action κ ν β) :
    (x >>= f) c = match x c with
      | .ok a d => f a d
      | .error e d => .error e d := by
  cases h : x c <;> simp [bind, EStateM.bind, h]

theorem Action.pure_apply (a : α) : (pure a : Action κ ν α) c = .ok a c := rfl
theorem Action.get_apply : (get : Action κ ν (Cache κ ν)) c = .ok c c := rfl
theorem Action.modify_apply (f : Cache κ ν → Cache κ ν) : (modify f : Action κ ν PUnit) c = .ok () (f c) := rfl

end Run

namespace Cache

open Recency.Action

/-! ## Agreement -/

/-- The cache as a plain list. -/
def view (c : Cache κ ν) : Plain κ ν where
  entries := c.entries
  bound := c.bound
  defaultTtl := c.defaultTtl
  notifies := c.notifies
  clock := c.clock
  room := ⟨c.chain.arena.slots.size, c.chain.arena.capacity, c.memory⟩
  counters := c.counters
  stays := c.stays
  journal := c.journal

theorem mem_entries {c : Cache κ ν} {id : SlotId} {e : Entry κ ν} (hm : (id, e) ∈ c.chain.entries) : e ∈ c.entries :=
  List.mem_map_of_mem hm

/-- A chain is never so long that the size could wrap. -/
theorem toNat_add_one {α : Type} {chain : Chain α} (h : chain.WellFormed) {n : UInt64}
    (hn : n.toNat + 1 = chain.values.length) : (n + 1).toNat = n.toNat + 1 := by
  have hbig := h.length_le
  have hl : chain.values.length = chain.entries.length := List.length_map _
  simp only [Arena.maxSlots] at hbig
  rw [UInt64.toNat_add]
  exact Nat.mod_eq_of_lt (by simp only [UInt64.toNat_one]; omega)

theorem length_entries {c : Cache κ ν} (h : c.chain.WellFormed) : c.chain.length = c.entries.length := by
  rw [h.length_eq]
  exact (List.length_map _).symm

theorem useIndex_eq {c : Cache κ ν} (h : c.failing = none) (step : Index.Primitive) : useIndex step c = .ok () c := by
  simp only [useIndex, bind_apply, get_apply, h, pure_apply]

variable [DecidableEq κ]

structure Consistent (c : Cache κ ν) : Prop where
  chain : c.chain.WellFormed
  keys_nodup : (c.entries.map (·.key)).Nodup
  index_iff : ∀ k id, c.index.get? k = some id ↔ ∃ e, (id, e) ∈ c.chain.entries ∧ e.key = k
  size_eq : c.size.toNat = c.entries.length

structure Steady (c : Cache κ ν) : Prop extends Consistent c where
  failing : c.failing = none
  bound_pos : 0 < c.bound.toNat

theorem Steady.congr {c d : Cache κ ν} (h : c.Steady) (hc : d.chain = c.chain) (hi : d.index = c.index)
    (hs : d.size = c.size) (hf : d.failing = c.failing) (hb : d.bound = c.bound) : d.Steady := by
  have he : d.entries = c.entries := congrArg Chain.values hc
  exact ⟨⟨hc ▸ h.chain, he ▸ h.keys_nodup, hc ▸ hi ▸ h.index_iff, hs ▸ he ▸ h.size_eq⟩, hf ▸ h.failing,
    hb ▸ h.bound_pos⟩

theorem Steady.record {c : Cache κ ν} (h : c.Steady) (e : Event κ ν) :
    Steady { c with journal := e :: c.journal } := h.congr rfl rfl rfl rfl rfl

theorem Steady.count {c : Cache κ ν} (h : c.Steady) (m : Metric) :
    Steady { c with counters := c.counters.bump m } := h.congr rfl rfl rfl rfl rfl

theorem Consistent.keys_nodup' {c : Cache κ ν} (h : c.Consistent) :
    (c.chain.entries.map (·.2.key)).Nodup := by
  have := h.keys_nodup
  rwa [entries, Chain.values, List.map_map] at this

theorem Consistent.size_view {c : Cache κ ν} (h : c.Consistent) : c.view.size = c.size := by
  show UInt64.ofNat c.entries.length = c.size
  rw [← h.size_eq, UInt64.ofNat_toNat]

theorem Consistent.id_eq_iff {c : Cache κ ν} (h : c.Consistent) {p q : SlotId × Entry κ ν}
    (hp : p ∈ c.chain.entries) (hq : q ∈ c.chain.entries) : p.1 = q.1 ↔ p.2.key = q.2.key := by
  constructor
  · intro e
    rw [List.inj_on_of_nodup_map h.chain.ids_nodup hp hq e]
  · intro e
    rw [List.inj_on_of_nodup_map h.keys_nodup' hp hq e]

/-- The entries at other handles are those of other keys. -/
theorem Consistent.filter_id {c : Cache κ ν} (h : c.Consistent) {id : SlotId} {e : Entry κ ν}
    (hm : (id, e) ∈ c.chain.entries) :
    (c.chain.entries.filter (·.1 ≠ id)).map (·.2) = c.entries.filter (·.key ≠ e.key) := by
  rw [entries, Chain.values, List.filter_map]
  congr 1
  refine List.filter_congr fun p hp => ?_
  have := h.id_eq_iff hp hm
  simp only at this
  simp [this]

/-! ## Looking up -/

/-- The node that holds `k`. -/
def node? (c : Cache κ ν) (k : κ) : Option (SlotId × Entry κ ν) := c.chain.entries.find? (·.2.key = k)

theorem find?_view (c : Cache κ ν) (k : κ) : c.view.find? k = (c.node? k).map (·.2) :=
  List.find?_map ..

theorem node?_eq_some {c : Cache κ ν} {k : κ} {id : SlotId} {e : Entry κ ν} (h : c.node? k = some (id, e)) :
    (id, e) ∈ c.chain.entries ∧ e.key = k :=
  ⟨List.mem_of_find?_eq_some h, by simpa using List.find?_some h⟩

theorem Consistent.get?_index {c : Cache κ ν} (h : c.Consistent) (k : κ) :
    c.index.get? k = (c.node? k).map (·.1) := by
  cases hn : c.node? k with
  | none =>
    cases hi : c.index.get? k with
    | none => rfl
    | some id =>
      obtain ⟨e, he, hk⟩ := (h.index_iff k id).mp hi
      have := List.find?_eq_none.mp hn _ he
      simp [hk] at this
  | some p => exact (h.index_iff k p.1).mpr ⟨p.2, node?_eq_some hn⟩

theorem load_steady {c : Cache κ ν} (h : c.Steady) (k : κ) : load k c = .ok ((c.node? k).map (·.1)) c := by
  simp only [load, bind_apply, useIndex_eq h.failing, get_apply, pure_apply, h.get?_index]

theorem locate_steady {c : Cache κ ν} (h : c.Steady) (k : κ) : locate k c = .ok (c.node? k) c := by
  simp only [locate, bind_apply, load_steady h]
  cases hn : c.node? k with
  | none => rfl
  | some p =>
    obtain ⟨hm, hk⟩ := node?_eq_some hn
    simp only [Option.map_some, bind_apply, get_apply, h.chain.get?_eq_some_iff.mpr hm, if_pos hk, pure_apply]

/-! ## Ending a stay -/

theorem unmap_eq {c : Cache κ ν} (h : c.failing = none) (k : κ) (id : SlotId) :
    unmap k id c =
      .ok () { c with index := c.index.update k fun held => if held = id then .remove else .keep } := by
  simp only [unmap, bind_apply, useIndex_eq h, modify_apply]

theorem Consistent.size_pos {c : Cache κ ν} (h : c.Consistent) {e : Entry κ ν} (he : e ∈ c.entries) :
    0 < c.size.toNat := by
  rw [h.size_eq]
  exact List.length_pos_of_mem he

theorem toNat_sub_one {n : UInt64} (h : 0 < n.toNat) : (n - 1).toNat = n.toNat - 1 := by
  rw [UInt64.toNat_sub_of_le _ _ (by rw [UInt64.le_iff_toNat_le]; exact h)]
  rfl

/-- The cache after the stay of its entry `e` at `id` has ended. -/
theorem Steady.left {c : Cache κ ν} (h : c.Steady) {id : SlotId} {e : Entry κ ν} (hm : (id, e) ∈ c.chain.entries)
    {chain : Chain (Entry κ ν)} (hwf : chain.WellFormed) (hent : chain.entries = c.chain.entries.filter (·.1 ≠ id)) :
    Steady { c with
        chain
        index := c.index.update e.key fun held => if held = id then .remove else .keep
        size := c.size - 1 } ∧ chain.values = c.entries.filter (·.key ≠ e.key) := by
  have hval : chain.values = c.entries.filter (·.key ≠ e.key) := by
    rw [Chain.values, hent, h.filter_id hm]
  refine ⟨⟨⟨hwf, ?_, fun k i => ?_, ?_⟩, h.failing, h.bound_pos⟩, hval⟩
  · show (chain.values.map _).Nodup
    rw [hval]
    exact h.keys_nodup.sublist (List.filter_sublist.map _)
  · show (c.index.update _ _).get? k = some i ↔ ∃ e', (i, e') ∈ chain.entries ∧ e'.key = k
    rw [Index.get?_update, hent]
    by_cases hk : k = e.key
    · -- the key of the node that left is held by no other node
      subst hk
      have hi : c.index.get? e.key = some id := (h.index_iff _ _).mpr ⟨e, hm, rfl⟩
      simp only [if_true, hi, Option.bind_some]
      constructor
      · intro hc
        cases hc
      · rintro ⟨e', he', hk'⟩
        obtain ⟨he', hne⟩ := List.mem_filter.mp he'
        exact absurd ((h.id_eq_iff he' hm).mpr hk') (by simpa using hne)
    · rw [if_neg hk, h.index_iff]
      constructor
      · rintro ⟨e', he', rfl⟩
        refine ⟨e', List.mem_filter.mpr ⟨he', ?_⟩, rfl⟩
        have : i ≠ id := fun hi => hk ((h.id_eq_iff he' hm).mp hi)
        simpa using this
      · rintro ⟨e', he', rfl⟩
        exact ⟨e', (List.mem_filter.mp he').1, rfl⟩
  · show (c.size - 1).toNat = chain.values.length
    have hlen := (perm_cons_filter_key h.keys_nodup (mem_entries hm)).length_eq
    rw [toNat_sub_one (h.size_pos (mem_entries hm)), hval, h.size_eq, hlen]
    simp

theorem detach_steady {c : Cache κ ν} (h : c.Steady) {id : SlotId} {e : Entry κ ν} (hm : (id, e) ∈ c.chain.entries)
    (cause : Cause) :
    ∃ d, detach id cause c = .ok (some e) d ∧ d.Steady ∧ d.view = c.view.leave e cause ∧
      d.size.toNat + 1 = c.size.toNat ∧ d.chain.entries = c.chain.entries.filter (·.1 ≠ id) := by
  obtain ⟨chain, hrem, hwf, hent, hroom⟩ := h.chain.remove hm
  obtain ⟨hs, hval⟩ := h.left hm hwf hent
  have hpos := h.size_pos (mem_entries hm)
  have hsize := toNat_sub_one hpos
  simp only [detach, bind_apply, get_apply, hrem, modify_apply, Cache.record,
    unmap_eq (c := { c with chain, journal := _ }) h.failing, pure_apply]
  refine ⟨_, rfl, hs.congr rfl rfl rfl rfl rfl, ?_, ?_, hent⟩
  · simp only [view, Plain.leave, Plain.record, Plain.mk.injEq, true_and, and_true]
    exact ⟨hval, by simpa [Arena.room] using hroom⟩
  · show (c.size - 1).toNat + 1 = _
    omega

theorem evict_steady {c : Cache κ ν} (h : c.Steady) :
    match c.view.evict? with
    | none => evict c = .ok none c
    | some (e, p) => ∃ d, evict c = .ok (some e) d ∧ d.Steady ∧ d.view = p := by
  have hlast : c.view.entries.getLast? = c.chain.entries.getLast?.map (·.2) := List.getLast?_map
  simp only [Plain.evict?, hlast, evict, bind_apply, get_apply, h.chain.backId?_eq]
  cases hb : c.chain.entries.getLast? with
  | none => rfl
  | some p =>
    obtain ⟨id, e⟩ := p
    rw [hb] at hlast
    have hdrop := filter_key_getLast (f := (·.key)) h.keys_nodup hlast
    obtain ⟨d, hd, hs, hv, -⟩ := detach_steady h (List.mem_of_getLast? hb) .capacity
    simp only [Option.map_some, bind_apply, hd, note, Cache.record, count, get_apply, modify_apply, pure_apply]
    refine ⟨_, rfl, (hs.record _).count _, ?_⟩
    show (d.view.note (.evicted d.size)).count .evicted = _
    rw [← hs.size_view, hv, Plain.leave, hdrop]

theorem reap_steady {l : List (SlotId × Entry κ ν)} {c : Cache κ ν} (h : c.Steady) (hl : ∀ p ∈ l, p ∈ c.chain.entries)
    (hn : (l.map (·.1)).Nodup) :
    ∃ d, Cache.reap (l.map (·.1)) c = .ok (l.map (·.2)) d ∧ d.Steady ∧ d.view = c.view.reap (l.map (·.2)) ∧
      d.size.toNat + l.length = c.size.toNat := by
  induction l generalizing c with
  | nil => exact ⟨c, rfl, h, rfl, rfl⟩
  | cons p l ih =>
    obtain ⟨id, e⟩ := p
    obtain ⟨hid, hn⟩ := List.nodup_cons.mp hn
    obtain ⟨d, hd, hs, hv, hsize, hent⟩ := detach_steady h (hl (id, e) (by simp)) .expired
    have hl' : ∀ p ∈ l, p ∈ d.chain.entries := fun p hp => by
      have hne : p.1 ≠ id := fun hp' => hid (List.mem_map.mpr ⟨p, hp, hp'⟩)
      rw [hent]
      exact List.mem_filter.mpr ⟨hl p (by simp [hp]), by simpa using hne⟩
    obtain ⟨d', hd', hs', hv', hsize'⟩ := ih (c := { d with counters := d.counters.bump .expired }) (hs.count _) hl' hn
    simp only [List.map_cons, Cache.reap, bind_apply, hd, count, modify_apply, hd', pure_apply]
    refine ⟨d', rfl, hs', ?_, ?_⟩
    · rw [hv']
      show ((d.view.count .expired).reap _) = _
      rw [hv]
      rfl
    · simp only [List.length_cons] at hsize' ⊢
      omega

/-! ## Ending every stay -/

omit [DecidableEq κ] in
theorem forM_left (cause : Cause) (l : List (Entry κ ν)) (c : Cache κ ν) :
    (l.forM fun e => Cache.record (.left e cause)) c =
      .ok () { c with journal := (l.map (.left · cause)).reverse ++ c.journal } := by
  induction l generalizing c with
  | nil => rfl
  | cons e l ih =>
    simp only [List.forM_eq_forM, List.forM_cons, bind_apply, Cache.record, modify_apply] at ih ⊢
    rw [ih]
    simp

theorem dropAll_steady {c : Cache κ ν} (h : c.Steady) :
    ∃ d, Cache.dropAll c = .ok c.entries.reverse d ∧ d.Steady ∧ d.view = c.view.dropAll := by
  obtain ⟨hwf, hent⟩ := Chain.wellFormed_clear c.chain
  have hval : c.chain.clear.values = [] := by rw [Chain.values, hent]; rfl
  simp only [Cache.dropAll, bind_apply, get_apply, modify_apply, forM_left, unmapAll, pure_apply]
  rw [useIndex_eq (c := { c with chain := c.chain.clear, size := 0, journal := _ }) h.failing]
  refine ⟨_, rfl, ⟨⟨hwf, ?_, fun k i => ?_, ?_⟩, h.failing, h.bound_pos⟩, ?_⟩
  · show (c.chain.clear.values.map _).Nodup
    rw [hval]; exact List.nodup_nil
  · show (Index.empty : Index κ).get? k = some i ↔ ∃ e, (i, e) ∈ c.chain.clear.entries ∧ e.key = k
    simp [hent, Index.get?_empty]
  · show _ = c.chain.clear.values.length
    rw [hval]; rfl
  · simp only [view, Plain.dropAll, entries, hval, List.map_reverse, List.reverse_reverse]
    rfl

/-! ## Beginning a stay -/

omit [DecidableEq κ] in
theorem take_view {c : Cache κ ν} (h : c.chain.WellFormed) (e : Entry κ ν) :
    c.view.room.take c.view.entries.length = (c.chain.pushFront c.memory e).map fun p =>
      ⟨p.2.arena.slots.size, p.2.arena.capacity, c.memory⟩ := by
  have hp := h.pushFront_room c.memory e
  have hl : c.view.entries.length = c.chain.entries.length := List.length_map ..
  have hmap : (c.chain.pushFront c.memory e).map (fun p => Room.mk p.2.arena.slots.size p.2.arena.capacity c.memory) =
      ((c.chain.pushFront c.memory e).map (·.2.arena.room)).map fun r => ⟨r.1, r.2, c.memory⟩ := by
    cases c.chain.pushFront c.memory e <;> rfl
  rw [hmap, hp, Room.take, hl]
  by_cases hlt : c.chain.entries.length < c.chain.arena.slots.size
  · simp [view, hlt, Except.map, Arena.room]
  simp only [view, hlt, if_false, Arena.reserve]
  by_cases hmax : Arena.maxSlots < c.chain.arena.slots.size + 1
  · simp only [hmax, if_true, Except.map]
  by_cases hcap : c.chain.arena.slots.size + 1 ≤ c.chain.arena.capacity
  · simp only [hmax, hcap, if_true, if_false, Except.map]
  simp only [hmax, hcap, if_false]
  cases c.memory <;> rfl

/-- The cache after a stay has begun for `e` at `id`, under a key that was not there. -/
theorem Steady.entered {c : Cache κ ν} (h : c.Steady) {id : SlotId} {e : Entry κ ν} (hk : c.node? e.key = none)
    {chain : Chain (Entry κ ν)} (hwf : chain.WellFormed) (hent : chain.entries = (id, e) :: c.chain.entries) :
    Steady { c with chain, index := c.index.insert e.key id, size := c.size + 1 } ∧ chain.values = e :: c.entries := by
  have hval : chain.values = e :: c.entries := by rw [Chain.values, hent]; rfl
  have hfresh : ∀ x ∈ c.entries, x.key ≠ e.key := fun x hx hkx => by
    obtain ⟨⟨i, x⟩, hm, rfl⟩ := List.mem_map.mp hx
    have := List.find?_eq_none.mp hk _ hm
    exact absurd hkx (by simpa using this)
  refine ⟨⟨⟨hwf, ?_, fun k i => ?_, ?_⟩, h.failing, h.bound_pos⟩, hval⟩
  · show (chain.values.map (·.key)).Nodup
    rw [hval, List.map_cons]
    refine List.nodup_cons.mpr ⟨fun hm => ?_, h.keys_nodup⟩
    obtain ⟨x, hx, hkx⟩ := List.mem_map.mp hm
    exact hfresh x hx hkx
  · show (c.index.insert e.key id).get? k = some i ↔ ∃ x, (i, x) ∈ chain.entries ∧ x.key = k
    rw [Index.get?_insert, hent]
    by_cases hkk : k = e.key
    · subst hkk
      simp only [if_true, Option.some.injEq, List.mem_cons, Prod.mk.injEq]
      constructor
      · rintro rfl
        exact ⟨e, Or.inl ⟨rfl, rfl⟩, rfl⟩
      · rintro ⟨x, ⟨rfl, -⟩ | hx, hkx⟩
        · rfl
        · exact absurd hkx (hfresh x (mem_entries hx))
    · rw [if_neg hkk, h.index_iff]
      constructor
      · rintro ⟨x, hx, hkx⟩
        exact ⟨x, List.mem_cons_of_mem _ hx, hkx⟩
      · rintro ⟨x, hx, rfl⟩
        rcases List.mem_cons.mp hx with hx | hx
        · cases hx; exact absurd rfl hkk
        · exact ⟨x, hx, rfl⟩
  · show (c.size + 1).toNat = chain.values.length
    have hl : c.size.toNat + 1 = chain.values.length := by rw [hval, h.size_eq]; rfl
    rw [toNat_add_one hwf hl, hl]

theorem enter_steady {c : Cache κ ν} (h : c.Steady) {k : κ} (hk : c.node? k = none) (value : ν)
    (deadline : Option Instant) :
    match c.view.enter k value deadline with
    | .error e => Cache.enter k value deadline c = .ok (.error e) c
    | .ok p => ∃ d, Cache.enter k value deadline c = .ok (.ok ()) d ∧ d.Steady ∧ d.view = p := by
  have htake := take_view h.chain ⟨c.stays, k, value, deadline⟩
  simp only [Plain.enter, htake, Cache.enter, bind_apply, get_apply]
  cases hp : c.chain.pushFront c.memory ⟨c.stays, k, value, deadline⟩ with
  | error e => rfl
  | ok p =>
    obtain ⟨id, chain⟩ := p
    obtain ⟨hwf, hent⟩ := h.chain.pushFront hp
    obtain ⟨hs, hval⟩ := h.entered hk hwf hent
    simp only [Except.map, modify_apply, Cache.record, store, bind_apply]
    rw [useIndex_eq (c := { c with chain, stays := c.stays + 1, journal := _ }) h.failing]
    simp only [modify_apply, count, pure_apply]
    refine ⟨_, rfl, hs.congr rfl rfl rfl rfl rfl, ?_⟩
    simp [view, Plain.count, Plain.record, entries, hval]

/-! ## Moving to the front -/

/-- The chain after its entry `e` came to the front as `e'`, of the same key. -/
theorem Steady.fronted {c : Cache κ ν} (h : c.Steady) {id : SlotId} {e : Entry κ ν} (hm : (id, e) ∈ c.chain.entries)
    (e' : Entry κ ν) (hkey : e'.key = e.key) {chain : Chain (Entry κ ν)} (hwf : chain.WellFormed)
    (hent : chain.entries = (id, e') :: c.chain.entries.filter (·.1 ≠ id)) :
    Steady { c with chain } ∧ chain.values = e' :: c.entries.filter (·.key ≠ e.key) := by
  have hval : chain.values = e' :: c.entries.filter (·.key ≠ e.key) := by
    rw [Chain.values, hent, List.map_cons, h.filter_id hm]
  have hperm := perm_cons_filter_key h.keys_nodup (mem_entries hm)
  refine ⟨⟨⟨hwf, ?_, fun k i => ?_, ?_⟩, h.failing, h.bound_pos⟩, hval⟩
  · show (chain.values.map (·.key)).Nodup
    rw [hval, List.map_cons, hkey]
    exact (hperm.map (·.key)).nodup_iff.mp h.keys_nodup
  · show c.index.get? k = some i ↔ ∃ x, (i, x) ∈ chain.entries ∧ x.key = k
    rw [h.index_iff, hent]
    constructor
    · rintro ⟨x, hx, rfl⟩
      by_cases hi : i = id
      · subst hi
        exact ⟨e', by simp, by rw [hkey]; exact ((h.id_eq_iff hx hm).mp rfl).symm⟩
      · exact ⟨x, List.mem_cons_of_mem _ (List.mem_filter.mpr ⟨hx, by simpa using hi⟩), rfl⟩
    · rintro ⟨x, hx, rfl⟩
      rcases List.mem_cons.mp hx with hx | hx
      · cases hx; exact ⟨e, hm, hkey.symm⟩
      · exact ⟨x, (List.mem_filter.mp hx).1, rfl⟩
  · show c.size.toNat = chain.values.length
    rw [hval, h.size_eq, hperm.length_eq]
    rfl

theorem promote_steady {c : Cache κ ν} (h : c.Steady) {id : SlotId} {e : Entry κ ν} (hm : (id, e) ∈ c.chain.entries) :
    ∃ d, promote id c = .ok () d ∧ d.Steady ∧ d.view = c.view.front e := by
  obtain ⟨-, hwf, hent, hroom⟩ := h.chain.moveToFront hm
  obtain ⟨hs, hval⟩ := h.fronted hm e rfl hwf hent
  simp only [promote, modify_apply]
  refine ⟨_, rfl, hs, ?_⟩
  simp only [view, Plain.front, Plain.mk.injEq, true_and, and_true]
  exact ⟨hval, by simpa [Arena.room] using hroom⟩

theorem overwrite_steady {c : Cache κ ν} (h : c.Steady) {id : SlotId} {e : Entry κ ν} (hm : (id, e) ∈ c.chain.entries)
    (value : ν) (deadline : Option Instant) :
    ∃ d, Cache.overwrite id e value deadline c = .ok () d ∧ d.Steady ∧ d.view = c.view.overwrite e value deadline := by
  obtain ⟨hwf, hent, hroom⟩ := h.chain.setFront hm { e with value, deadline }
  obtain ⟨hs, hval⟩ := h.fronted hm { e with value, deadline } rfl hwf hent
  simp only [Cache.overwrite, bind_apply, modify_apply, Cache.record, count]
  refine ⟨_, rfl, (hs.record _).count _, ?_⟩
  simp only [view, Plain.overwrite, Plain.front, Plain.record, Plain.count, Plain.mk.injEq, true_and, and_true]
  exact ⟨hval, by simpa [Arena.room] using hroom⟩

/-! ## The check -/

theorem Consistent.index_size {c : Cache κ ν} (h : c.Consistent) : c.index.size = c.entries.length := by
  have hp : (c.index.entries.map (·.1)).Perm (c.entries.map (·.key)) := by
    refine (List.perm_ext_iff_of_nodup c.index.keys_nodup h.keys_nodup).mpr fun k => ?_
    constructor
    · intro hk
      obtain ⟨⟨k, id⟩, hm, rfl⟩ := List.mem_map.mp hk
      obtain ⟨e, he, hke⟩ := (h.index_iff k id).mp (Index.get?_eq_some_iff.mpr hm)
      exact List.mem_map.mpr ⟨e, mem_entries he, hke⟩
    · intro hk
      obtain ⟨e, he, rfl⟩ := List.mem_map.mp hk
      obtain ⟨⟨id, e⟩, hm, rfl⟩ := List.mem_map.mp he
      have := Index.get?_eq_some_iff.mp ((h.index_iff e.key id).mpr ⟨e, hm, rfl⟩)
      exact List.mem_map_of_mem this
  simpa [Index.size] using hp.length_eq

theorem misdirected?_steady {c : Cache κ ν} (h : c.Steady) {l : List (SlotId × Entry κ ν)}
    (hl : ∀ p ∈ l, p ∈ c.chain.entries) : misdirected? l c = .ok none c := by
  induction l with
  | nil => rfl
  | cons p l ih =>
    obtain ⟨id, e⟩ := p
    have hi := (h.index_iff e.key id).mpr ⟨e, hl _ (by simp), rfl⟩
    rw [h.get?_index] at hi
    simp only [misdirected?, bind_apply, load_steady h, hi, if_true]
    exact ih fun p hp => hl p (by simp [hp])

theorem check_steady {c : Cache κ ν} (h : c.Steady) :
    check c = .ok (if c.bound < c.size then some (.overBound c.size c.bound) else none) c := by
  simp only [check, bind_apply, get_apply, h.chain.check_eq, h.size_eq, length_entries h.chain, h.index_size,
    ne_eq, not_true_eq_false, if_false]
  split
  · rfl
  · simp only [bind_apply, misdirected?_steady h fun p hp => hp, pure_apply, Option.map_none]

end Cache

end Recency

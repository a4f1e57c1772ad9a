import Mathlib.Data.List.Perm.Subperm
import Recency.Proofs.Cache.Consistent
import Recency.Proofs.Chain.Sequence
/-
  Recency.Proofs.Cache.Checked — a cache passes its check exactly when it is consistent.

  The check counts, and looks up the key of each node. It compares no two keys, and it
  looks at no mapping of a key that no node has. Both are settled by counting:

  - Distinct nodes have distinct handles, and the index leads from a key to one handle. So
    no two nodes that the index leads to have one key (`keys_nodup_of_led`).
  - As many keys as nodes, and the keys of the nodes among them, leave no place for another
    (`maps_exactly`).

  `check_finds` says what the check answers about a well-formed chain, whatever the index and
  the counts; `check_passes_iff` reads off when it finds nothing, for a chain of any history.
-/

namespace Recency.Cache

open Recency.Action

variable {κ ν : Type} [DecidableEq κ]

/-! ## What the check answers -/

/-- The fault that is found first, of those that concern more than the chain. -/
inductive Finds (c : Cache κ ν) : Option Fault → Prop
  | size : c.size.toNat ≠ c.chain.entries.length → Finds c (some (.size c.size c.chain.entries.length))
  | overBound : c.size.toNat = c.chain.entries.length → c.bound < c.size → Finds c (some (.overBound c.size c.bound))
  | indexSize :
      c.size.toNat = c.chain.entries.length → c.size ≤ c.bound → c.index.size ≠ c.chain.entries.length →
        Finds c (some (.indexSize c.index.size c.chain.entries.length))
  | misdirected {id : SlotId} {e : Entry κ ν} :
      c.size.toNat = c.chain.entries.length → c.size ≤ c.bound → c.index.size = c.chain.entries.length →
        (id, e) ∈ c.chain.entries → c.index.get? e.key ≠ some id → Finds c (some (.misdirected id.index))
  | nothing :
      c.size.toNat = c.chain.entries.length → c.size ≤ c.bound → c.index.size = c.chain.entries.length →
        (∀ p ∈ c.chain.entries, c.index.get? p.2.key = some p.1) → Finds c none

theorem misdirected?_eq {c : Cache κ ν} (hf : c.failing = none) (l : List (SlotId × Entry κ ν)) :
    misdirected? l c = .ok ((l.find? fun p => c.index.get? p.2.key ≠ some p.1).map (·.1)) c := by
  induction l with
  | nil => rfl
  | cons p l ih =>
    obtain ⟨id, e⟩ := p
    simp only [misdirected?, load, bind_apply, useIndex_eq hf, get_apply, pure_apply]
    by_cases hled : c.index.get? e.key = some id
    · rw [if_pos hled, ih, List.find?_cons_of_neg (by simpa using hled)]
    · rw [if_neg hled, List.find?_cons_of_pos (by simpa using hled)]
      rfl

/-- The check of a cache with a well-formed chain changes nothing and says what it finds. -/
theorem check_finds {c : Cache κ ν} (hw : c.chain.WellFormed) (hf : c.failing = none) :
    ∃ fault, check c = .ok fault c ∧ c.Finds fault := by
  simp only [check, bind_apply, get_apply, hw.check_eq, hw.length_eq, ne_eq]
  by_cases hsize : c.size.toNat = c.chain.entries.length
  case neg =>
    rw [if_pos hsize]
    exact ⟨_, rfl, .size hsize⟩
  rw [if_neg (not_not_intro hsize)]
  by_cases hbound : c.bound < c.size
  case pos =>
    rw [if_pos hbound]
    exact ⟨_, rfl, .overBound hsize hbound⟩
  rw [if_neg hbound]
  have hle : c.size ≤ c.bound := UInt64.not_lt.mp hbound
  by_cases hindex : c.index.size = c.chain.entries.length
  case neg =>
    rw [if_pos hindex]
    exact ⟨_, rfl, .indexSize hsize hle hindex⟩
  rw [if_neg (not_not_intro hindex)]
  simp only [bind_apply, misdirected?_eq hf, pure_apply]
  refine ⟨_, rfl, ?_⟩
  cases hfind : c.chain.entries.find? fun p => c.index.get? p.2.key ≠ some p.1 with
  | none =>
    refine .nothing hsize hle hindex fun p hp => ?_
    simpa using List.find?_eq_none.mp hfind p hp
  | some p =>
    have hnot : c.index.get? p.2.key ≠ some p.1 := by simpa using List.find?_some hfind
    exact .misdirected hsize hle hindex (List.mem_of_find?_eq_some hfind) hnot

/-! ## Counting -/

section Counting

variable {x : Index κ} {nodes : List (SlotId × Entry κ ν)}

/-- Nodes that the index leads to from their keys have distinct keys. -/
theorem keys_nodup_of_led (hids : (nodes.map (·.1)).Nodup) (hled : ∀ p ∈ nodes, x.get? p.2.key = some p.1) :
    (nodes.map (·.2.key)).Nodup := by
  have hreach : (nodes.map (·.2.key)).map x.get? = (nodes.map (·.1)).map some := by
    rw [List.map_map, List.map_map]
    exact List.map_congr_left hled
  refine List.Nodup.of_map x.get? ?_
  rw [hreach]
  exact hids.map fun _ _ => Option.some.inj

/-- An index with a mapping for each node, and no more mappings than nodes, has no other. -/
theorem maps_exactly (hkeys : (nodes.map (·.2.key)).Nodup) (hled : ∀ p ∈ nodes, x.get? p.2.key = some p.1)
    (hsize : x.size = nodes.length) (k : κ) (id : SlotId) :
    x.get? k = some id ↔ ∃ e, (id, e) ∈ nodes ∧ e.key = k := by
  have hsub : nodes.map (·.2.key) ⊆ x.entries.map Prod.fst := by
    intro k hk
    obtain ⟨p, hp, rfl⟩ := List.mem_map.mp hk
    exact List.mem_map_of_mem (Index.get?_eq_some_iff.mp (hled p hp))
  have hperm : (nodes.map (·.2.key)).Perm (x.entries.map Prod.fst) :=
    (List.subperm_of_subset hkeys hsub).perm_of_length_le (by simpa [Index.size] using Nat.le_of_eq hsize)
  constructor
  · intro hk
    have hmem : k ∈ nodes.map (·.2.key) :=
      hperm.mem_iff.mpr (List.mem_map_of_mem (Index.get?_eq_some_iff.mp hk))
    obtain ⟨⟨id', e⟩, hp, rfl⟩ := List.mem_map.mp hmem
    have hid : some id' = some id := (hled _ hp).symm.trans hk
    cases hid
    exact ⟨e, hp, rfl⟩
  · rintro ⟨e, hp, rfl⟩
    exact hled _ hp

end Counting

/-! ## Passing -/

/-- The check, asked about the chain of any history with any index, any count of entries and
    any bound beside it, answers. It finds nothing exactly when the count is that of the nodes
    and within the bound, no key is in the chain twice, and the index has the mapping of each
    node's key to that node and no other. -/
theorem check_passes_iff (n : Nat) (ops : List (Allocator × Chain.Op (Entry κ ν))) (c : Cache κ ν) (index : Index κ)
    (size bound : UInt64) :
    let chain := Chain.applyAll ops (Chain.withCapacity n)
    let d : Cache κ ν := { c with chain, index, size, bound, failing := none }
    ∃ fault, check d = .ok fault d ∧ (fault = none ↔
      size.toNat = chain.entries.length ∧ size ≤ bound ∧ (chain.values.map (·.key)).Nodup ∧
        ∀ k id, index.get? k = some id ↔ ∃ e, (id, e) ∈ chain.entries ∧ e.key = k) := by
  intro chain d
  have hw : chain.WellFormed := ((Chain.kept_withCapacity n).applyAll ops).wellFormed
  obtain ⟨fault, hcheck, hfinds⟩ := check_finds (c := d) hw rfl
  refine ⟨fault, hcheck, ?_, ?_⟩
  · rintro rfl
    cases hfinds with
    | nothing hsize hle hindex hled =>
      have hkeys := keys_nodup_of_led hw.ids_nodup hled
      refine ⟨hsize, hle, ?_, maps_exactly hkeys hled hindex⟩
      rwa [Chain.values, List.map_map]
  · rintro ⟨hsize, hle, hkeys, hmaps⟩
    have hlen : chain.values.length = chain.entries.length := List.length_map _
    have hd : d.Consistent := ⟨hw, hkeys, hmaps, hsize.trans hlen.symm⟩
    cases hfinds with
    | size hne => exact absurd hsize hne
    | overBound _ hover => exact absurd hle (UInt64.not_le.mpr hover)
    | indexSize _ _ hne => exact absurd (hd.index_size.trans hlen) hne
    | misdirected _ _ _ hp hne => exact absurd ((hmaps _ _).mpr ⟨_, hp, rfl⟩) hne
    | nothing => rfl

end Recency.Cache

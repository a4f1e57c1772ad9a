import Recency.Proofs.Session.Trail
/-
  Recency.Proofs.Session.Memory — how much memory a cache takes.

  A place for an entry is taken only when all places are in use, and an entry comes in only
  while there are fewer than the bound. So there are never more places than the largest
  bound that has been in force (`peak`), however often callbacks refill the room that was
  just made for somebody else.

  A cache with memory for `peak` entries from the start has all it will ever need: it never
  grows, and no store is refused, whatever the allocator says.
-/

namespace Recency

variable {κ ν : Type}

/-! ## Places -/

namespace Room

variable {held bound : Nat} {r r' : Room}

/-- What takes a place for one more than `held`, fewer than `bound`. -/
theorem take_ok (h : r.take held = .ok r') (hb : held < bound) :
    r'.places ≤ max r.places bound ∧ (bound ≤ r.capacity → r'.capacity = r.capacity) := by
  unfold take at h
  by_cases hp : held < r.places
  · rw [if_pos hp] at h
    cases h
    exact ⟨by omega, fun _ => rfl⟩
  rw [if_neg hp] at h
  by_cases hm : Arena.maxSlots < r.places + 1
  · rw [if_pos hm] at h
    cases h
  rw [if_neg hm] at h
  by_cases hc : r.places + 1 ≤ r.capacity
  · rw [if_pos hc] at h
    cases h
    refine ⟨?_, fun _ => rfl⟩
    show r.places + 1 ≤ max r.places bound
    omega
  · rw [if_neg hc] at h
    cases hmem : r.memory with
    | refuses => rw [hmem] at h; cases h
    | grants =>
      rw [hmem] at h
      cases h
      refine ⟨?_, fun hb' => by omega⟩
      show r.places + 1 ≤ max r.places bound
      omega

theorem take_granted (hb : held < bound) (hc : bound ≤ r.capacity) (hm : bound ≤ Arena.maxSlots) (e : ArenaError) :
    r.take held ≠ .error e := by
  unfold take
  by_cases hp : held < r.places
  · rw [if_pos hp]
    exact nofun
  · rw [if_neg hp, if_neg (by omega), if_pos (by omega)]
    exact nofun

end Room

variable [DecidableEq κ]

namespace Plain

/-- Within a bound of at most `n`, and with no more places than that. -/
structure Housed (n : Nat) (p : Plain κ ν) : Prop where
  bound_pos : 0 < p.bound.toNat
  bound_le : p.bound.toNat ≤ n
  places_le : p.room.places ≤ n

variable {p q : Plain κ ν} {n : Nat}

omit [DecidableEq κ] in
theorem held_lt_bound (hb : 0 < p.bound.toNat) (h : p.hasRoom = true ∨ p.entries = []) :
    p.entries.length < p.bound.toNat := by
  rcases h with h | h
  · exact of_decide_eq_true h
  · rw [h]
    exact hb

/-- What a change does to the room: while it holds `n` it is not made larger. -/
theorem Change.housed (h : Change p q) (hp : p.Housed n) :
    q.Housed n ∧ (n ≤ p.room.capacity → q.room.capacity = p.room.capacity) := by
  obtain ⟨hpos, hle, hplaces⟩ := hp
  have hbound := h.bound_eq
  suffices hroom : q.room.places ≤ n ∧ (n ≤ p.room.capacity → q.room.capacity = p.room.capacity) from
    ⟨⟨hbound ▸ hpos, hbound ▸ hle, hroom.1⟩, hroom.2⟩
  cases h with
  | enter hroom _ h =>
    obtain ⟨room, ht, rfl⟩ := enter_ok h
    obtain ⟨h1, h2⟩ := Room.take_ok ht (held_lt_bound hpos hroom)
    refine ⟨?_, fun hn => h2 (by omega)⟩
    show room.places ≤ n
    omega
  | evict h =>
    obtain ⟨-, m, rfl⟩ := evict?_eq_some h
    exact ⟨hplaces, fun _ => rfl⟩
  | dropAll => exact ⟨Nat.zero_le n, fun _ => rfl⟩
  | _ => exact ⟨hplaces, fun _ => rfl⟩

theorem Changes.housed (h : Changes p q) (hp : p.Housed n) :
    q.Housed n ∧ (n ≤ p.room.capacity → q.room.capacity = p.room.capacity) := by
  induction h with
  | refl => exact ⟨hp, fun _ => rfl⟩
  | tail _ hc ih =>
    obtain ⟨hq, hcap⟩ := ih
    obtain ⟨hr, hcap'⟩ := hc.housed hq
    exact ⟨hr, fun hn => (hcap' (by rw [hcap hn]; exact hn)).trans (hcap hn)⟩

theorem Changes.bound_eq (h : Changes p q) : q.bound = p.bound := by
  induction h with
  | refl => rfl
  | tail _ hc ih => exact hc.bound_eq.trans ih

/-- A piece that has memory for `n` entries, and may hold no more, is not refused. -/
theorem Goes.granted {r : Result κ ν} (h : p.Goes r) (hp : p.Housed n) (hc : n ≤ p.room.capacity)
    (hm : n ≤ Arena.maxSlots) : Engine.refusal? r = none := by
  rw [Option.eq_none_iff_forall_not_mem]
  intro e he
  obtain ⟨q, hq, hroom, ht⟩ := h.refused e he
  obtain ⟨hq', hcap⟩ := hq.housed hp
  have hle := hq'.bound_le
  exact Room.take_granted (held_lt_bound hq'.bound_pos hroom) (by rw [hcap hc]; omega) (by omega) e ht

omit [DecidableEq κ] in
/-- Getting ready for an operation changes the bound at most. -/
theorem primed_room (p : Plain κ ν) (op : Op κ ν) : (p.primed op).room = p.room := by
  cases op with
  | resize asked =>
    show (p.setBound asked).room = _
    unfold setBound
    split <;> rfl
  | _ => rfl

end Plain

/-! ## Along a run -/

/-- Puts no bound above `n` in force. -/
def Op.within (n : UInt64) : Op κ ν → Bool
  | .resize asked => Cache.effectiveBound asked ≤ n
  | _ => true

namespace Machine

/-- The largest bound that has been in force, `first` to begin with. -/
def peak (first : UInt64) : List (Piece (Cache κ ν) κ ν) → Nat
  | [] => first.toNat
  | p :: ps => max p.after.bound.toNat (peak first ps)

variable {cfg : Settings} {rs : List (Reaction κ ν)} {ps : List (Piece (Cache κ ν) κ ν)} {m : Machine (Cache κ ν) κ ν}

omit [DecidableEq κ] in
/-- A cache that is never resized above its first bound never has a larger one. -/
theorem peak_le {first : UInt64} (hbound : ∀ p ∈ ps, p.after.bound ≤ first) : peak first ps = first.toNat := by
  induction ps with
  | nil => rfl
  | cons p ps ih =>
    have hp := UInt64.le_iff_toNat_le.mp (hbound p List.mem_cons_self)
    have hps := ih fun p' hp' => hbound p' (List.mem_cons_of_mem p hp')
    rw [peak, hps]
    omega

omit [DecidableEq κ] in
/-- The list that a piece begins at: the one it found, with the bound in force that it is to
    put in force. -/
theorem ready_housed {p : Piece (Cache κ ν) κ ν} {ready : Plain κ ν} {n : Nat} (h : p.before.view.Housed n)
    (hready : ready = p.before.view ∨ ready = p.before.view.primed p.op) :
    ready.Housed (max ready.bound.toNat n) ∧ ready.room = p.before.view.room := by
  obtain ⟨hpos, hle, hplaces⟩ := h
  rcases hready with rfl | rfl
  · exact ⟨⟨hpos, by omega, by omega⟩, rfl⟩
  have hroom := p.before.view.primed_room p.op
  refine ⟨⟨?_, by omega, by rw [hroom]; omega⟩, hroom⟩
  cases p.op with
  | resize asked => exact Cache.effectiveBound_pos asked
  | _ => exact hpos

omit [DecidableEq κ] in
theorem ready_within {p : Piece (Cache κ ν) κ ν} {ready : Plain κ ν} {n : UInt64} (hb : p.before.bound ≤ n)
    (hw : p.op.within n = true) (hready : ready = p.before.view ∨ ready = p.before.view.primed p.op) :
    ready.bound ≤ n := by
  rcases hready with rfl | rfl
  · exact hb
  cases hop : p.op with
  | resize asked =>
    rw [hop] at hw
    exact of_decide_eq_true hw
  | _ => exact hb

/-- What a run so far tells of the places and of the memory for them. -/
structure Housing (cfg : Settings) (ps : List (Piece (Cache κ ν) κ ν)) (p : Plain κ ν) : Prop where
  housed : p.Housed (peak (Cache.effectiveBound cfg.bound) ps)
  ample : peak (Cache.effectiveBound cfg.bound) ps ≤ (Plain.ofSettings (κ := κ) (ν := ν) cfg).room.capacity →
    peak (Cache.effectiveBound cfg.bound) ps ≤ Arena.maxSlots →
      p.room.capacity = (Plain.ofSettings (κ := κ) (ν := ν) cfg).room.capacity ∧ ∀ piece ∈ ps, piece.refusal? = none
  within : (∀ piece ∈ ps, piece.op.within (Cache.effectiveBound cfg.bound) = true) →
    p.bound ≤ Cache.effectiveBound cfg.bound ∧ ∀ piece ∈ ps, piece.after.bound ≤ Cache.effectiveBound cfg.bound

theorem Housing.piece {p : Piece (Cache κ ν) κ ν} (hp : p.Steadily) (h : Housing cfg ps p.before.view) :
    Housing cfg (p :: ps) p.after.view := by
  obtain ⟨-, ready, hready, hg⟩ := hp
  have hchanges : ready.Changes p.after.view := Piece.keeps_seen hg.changes
  have hbound : p.after.bound = ready.bound := hchanges.bound_eq
  obtain ⟨hhoused, hroom⟩ := ready_housed h.housed hready
  obtain ⟨hafter, hcap⟩ := hchanges.housed hhoused
  rw [hroom] at hcap
  have hpeak : peak (Cache.effectiveBound cfg.bound) (p :: ps) =
      max ready.bound.toNat (peak (Cache.effectiveBound cfg.bound) ps) := by rw [peak, hbound]
  refine ⟨hpeak ▸ hafter, ?_, ?_⟩
  · intro hfits hslots
    rw [hpeak] at hfits hslots
    obtain ⟨hsame, hnone⟩ := h.ample (by omega) (by omega)
    refine ⟨(hcap (by omega)).trans hsame, ?_⟩
    intro piece hmem
    rcases List.mem_cons.mp hmem with rfl | hmem
    · rw [← Piece.refusal_seen]
      exact hg.granted hhoused (by rw [hroom]; omega) hslots
    · exact hnone piece hmem
  · intro hw
    obtain ⟨hb, hbs⟩ := h.within fun piece hmem => hw piece (List.mem_cons_of_mem p hmem)
    have hle : p.after.bound ≤ Cache.effectiveBound cfg.bound :=
      hbound ▸ ready_within hb (hw p List.mem_cons_self) hready
    refine ⟨hle, ?_⟩
    intro piece hmem
    rcases List.mem_cons.mp hmem with rfl | hmem
    · exact hle
    · exact hbs piece hmem

omit [DecidableEq κ] in
theorem housing_ofSettings (cfg : Settings) : Housing cfg [] (Plain.ofSettings (κ := κ) (ν := ν) cfg) where
  housed := ⟨Cache.effectiveBound_pos cfg.bound, Nat.le_refl _, Nat.zero_le _⟩
  ample _ _ := ⟨rfl, fun _ hm => nomatch hm⟩
  within _ := ⟨UInt64.le_refl _, fun _ hm => nomatch hm⟩

theorem Trail.housing (h : Trail Cache.engine (fun op => op.quiet = true) ⟨cfg.build, rs⟩ ps m)
    (hrs : ∀ r ∈ rs, ∀ op ∈ r.ops, op.quiet = true) : Housing cfg ps m.cache.view := by
  refine h.carries_goes (I := Housing cfg) ?_ ?_ hrs (housing_ofSettings cfg)
  · intro ps e p _ hp
    exact ⟨⟨hp.housed.bound_pos, hp.housed.bound_le, hp.housed.places_le⟩, hp.ample, hp.within⟩
  · intro ps p hp hI
    exact hI.piece hp

/-- At every moment there are no more entries, and no more slots for them, than the largest
    bound in force so far. A cache built with memory for its bound, and never resized above
    it, keeps the memory it was built with, and no store is refused. -/
theorem Trail.slots_within_peak (h : Trail Cache.engine (fun op => op.quiet = true) ⟨cfg.build, rs⟩ ps m)
    (hrs : ∀ r ∈ rs, ∀ op ∈ r.ops, op.quiet = true) :
    m.cache.entries.length ≤ peak (Cache.effectiveBound cfg.bound) ps ∧
      m.cache.chain.arena.slots.size ≤ peak (Cache.effectiveBound cfg.bound) ps ∧
      ((Cache.effectiveBound cfg.bound).toNat ≤ cfg.initialCapacity →
        (Cache.effectiveBound cfg.bound).toNat ≤ Arena.maxSlots →
        (∀ p ∈ ps, p.op.within (Cache.effectiveBound cfg.bound) = true) →
        m.cache.chain.arena.capacity = (cfg.build : Cache κ ν).chain.arena.capacity ∧
          ∀ p ∈ ps, p.refusal? = none) := by
  have hh := h.housing hrs
  have hslots : m.cache.chain.arena.slots.size ≤ peak (Cache.effectiveBound cfg.bound) ps := hh.housed.places_le
  have hnodes : m.cache.entries.length ≤ m.cache.chain.arena.slots.size := by
    have hw := (h.reach.steady hrs).chain
    rw [← Cache.length_entries hw]
    obtain ⟨nodes, hs⟩ := hw
    obtain ⟨free, hf⟩ := hs.tidy
    have := hf.count
    unfold Chain.length
    omega
  refine ⟨Nat.le_trans hnodes hslots, hslots, ?_⟩
  intro hcap hmax hw
  have hpeak := peak_le (hh.within hw).2
  have hroom : (Plain.ofSettings (κ := κ) (ν := ν) cfg).room.capacity = (Cache.effectiveBound cfg.bound).toNat := by
    show min (min cfg.initialCapacity (Cache.effectiveBound cfg.bound).toNat) Arena.maxSlots = _
    omega
  exact hh.ample (Nat.le_of_eq (hpeak.trans hroom.symm)) (hpeak ▸ hmax)

/-- No more memory is to be had once the cache is built, and a callback fills the room that
    was just made for the store that waits for it. -/
theorem Trail.slots_within_peak_refilled :
    let s : Session (Cache Nat Nat) Nat Nat :=
      ⟨Settings.build ⟨2, .zero, true, none, false, 2⟩, [⟨none, 1, [.put 4 40 none .report]⟩]⟩
    ∃ ps m, Trail Cache.engine (fun op => op.quiet = true) s ps m ∧ m.control = .finished (.returned .unit) ∧
      m.cache.entries.map (·.key) = [3, 4] ∧ m.cache.memory = .refuses ∧ m.cache.entries.length ≤ peak 2 ps ∧
      m.cache.chain.arena.slots.size ≤ peak 2 ps ∧ m.cache.chain.arena.capacity = 2 ∧
      ∀ p ∈ ps, p.refusal? = none := by
  intro s
  have hrs : ∀ r ∈ s.reactions, ∀ op ∈ r.ops, op.quiet = true := by decide
  have hm : ∃ ps m, Trail Cache.engine (fun op => op.quiet = true) s ps m ∧ m.control = .finished (.returned .unit) ∧
      m.cache.entries.map (·.key) = [3, 4] ∧ m.cache.memory = .refuses ∧ ∀ p ∈ ps, p.op.within 2 = true := by
    refine ⟨_, _, .step (.step (.step (.step (.step (.start (.put 3 30 none .abort) (.start (.put 2 20 none .abort)
      (.start (.put 1 10 none .abort) (.start (.memory .refuses) .idle rfl rfl) rfl rfl) rfl rfl) rfl rfl))))), ?_⟩
    decide +kernel
  obtain ⟨ps, m, hm, hc, hkeys, hmem, hw⟩ := hm
  obtain ⟨hnodes, hslots, hample⟩ := hm.slots_within_peak hrs
  obtain ⟨hcap, hnone⟩ := hample (by decide) (by decide) hw
  exact ⟨ps, m, hm, hc, hkeys, hmem, hnodes, hslots, hcap, hnone⟩

end Machine

end Recency

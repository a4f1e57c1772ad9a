import Recency.Proofs.Arena.Stock
/-
  Recency.Proofs.Arena.Generations — which handles still resolve, from how often slots were emptied.

  A handle is issued for one filling of a slot and released when the slot is emptied. The
  slot's generation goes up at each release, in 32 bits: a handle that was released is
  refused until the generation has come round to its own.

  What a history does to handles is a list of marks, latest first. The marks alone say what
  generation each slot has and whether it is filled (`Mark.stamp`). `Mark.Sound` says that
  each handle was issued and released at the stamp its slot had; from it `Mark.tells` reads
  off when a handle resolves, without a word about arenas. The rest of the module shows that
  an arena has the stamps that its history says (`Dated`), whatever was asked of it.
-/

namespace Recency

/-- What an operation does to a handle. -/
inductive Mark where
  | issued (id : SlotId)
  | released (id : SlotId)
  | cleared
  deriving DecidableEq, Repr

namespace Mark

/-! ## What marks say of a slot -/

/-- How often the slot at `i` was released since the last clear. -/
def releases (i : UInt32) : List Mark → Nat
  | [] | .cleared :: _ => 0
  | .issued _ :: h => releases i h
  | .released id :: h => if id.index = i then releases i h + 1 else releases i h

def filled (i : UInt32) : List Mark → Bool
  | [] | .cleared :: _ => false
  | .issued id :: h => if id.index = i then true else filled i h
  | .released id :: h => if id.index = i then false else filled i h

/-- The generation of the slot at `i`, and whether it is filled. -/
def stamp (i : UInt32) (h : List Mark) : UInt32 × Bool := (UInt32.ofNat (releases i h), filled i h)

/-- Handles were issued for slots that were not filled and released from slots that were, each
    with the generation of its slot. -/
def Sound : List Mark → Prop
  | [] => True
  | .cleared :: h => Sound h
  | .issued id :: h => stamp id.index h = (id.generation, false) ∧ Sound h
  | .released id :: h => stamp id.index h = (id.generation, true) ∧ Sound h

/-- The marks that operations leave. -/
def trace {σ ο ρ : Type} (step : Allocator → ο → σ → ρ × σ) (mark? : ο → ρ → Option Mark) :
    List (Allocator × ο) → σ → List Mark
  | [], _ => []
  | (mem, op) :: ops, s => trace step mark? ops (step mem op s).2 ++ (mark? op (step mem op s).1).toList

theorem stamp_issued (i : UInt32) (id : SlotId) (h : List Mark) :
    stamp i (.issued id :: h) = if id.index = i then ((stamp i h).1, true) else stamp i h := by
  unfold stamp
  by_cases e : id.index = i <;> simp [releases, filled, e]

theorem stamp_released (i : UInt32) (id : SlotId) (h : List Mark) :
    stamp i (.released id :: h) = if id.index = i then ((stamp i h).1 + 1, false) else stamp i h := by
  unfold stamp
  by_cases e : id.index = i <;> simp [releases, filled, e, UInt32.ofNat_add]

theorem stamp_cleared (i : UInt32) (h : List Mark) : stamp i (.cleared :: h) = (0, false) := rfl

variable {i : UInt32} {id id' : SlotId} {h later middle earlier : List Mark}

theorem releases_append (hc : .cleared ∉ later) :
    releases i (later ++ earlier) = releases i later + releases i earlier := by
  induction later with
  | nil => simp [releases]
  | cons m later ih =>
    obtain ⟨hm, htail⟩ := not_or.mp (mt List.mem_cons.mpr hc)
    cases m with
    | cleared => exact absurd rfl hm
    | issued id => simpa [releases] using ih htail
    | released id =>
      simp only [List.cons_append, releases, ih htail]
      split <;> omega

/-- A slot that was filled, and not released since, is filled. -/
theorem filled_of_releases (hc : .cleared ∉ later) (hr : releases id.index later = 0) :
    filled id.index (later ++ .issued id :: earlier) = true := by
  induction later with
  | nil => simp [filled]
  | cons m later ih =>
    obtain ⟨hm, htail⟩ := not_or.mp (mt List.mem_cons.mpr hc)
    cases m with
    | cleared => exact absurd rfl hm
    | issued id' => simp [filled, ih htail hr]
    | released id' =>
      simp only [releases] at hr
      split at hr
      case isTrue => cases hr
      case isFalse hne => simp [filled, hne, ih htail hr]

theorem Sound.of_append (hs : Sound (later ++ earlier)) : Sound earlier := by
  induction later with
  | nil => exact hs
  | cons m later ih =>
    cases m with
    | cleared => exact ih hs
    | issued id => exact ih hs.2
    | released id => exact ih hs.2

theorem ofNat_eq_iff {m n : Nat} : UInt32.ofNat m = UInt32.ofNat n ↔ m % UInt32.size = n % UInt32.size := by
  rw [← UInt32.toNat_inj, UInt32.toNat_ofNat', UInt32.toNat_ofNat']

/-- A handle that an operation makes resolve is one that it issues. -/
theorem issued_of_stamp {m : Option Mark} (hs : Sound (m.toList ++ h))
    (hbefore : stamp id.index h ≠ (id.generation, true))
    (hafter : stamp id.index (m.toList ++ h) = (id.generation, true)) : m = some (.issued id) := by
  cases m with
  | none => exact absurd hafter hbefore
  | some m =>
    simp only [Option.toList_some, List.singleton_append] at hs hafter
    cases m with
    | cleared => exact absurd (congrArg Prod.snd hafter) Bool.false_ne_true
    | issued id' =>
      rw [stamp_issued] at hafter
      by_cases e : id'.index = id.index
      · rw [if_pos e, ← e, hs.1] at hafter
        obtain ⟨i', g'⟩ := id'
        obtain ⟨i, g⟩ := id
        cases e
        cases hafter
        rfl
      · rw [if_neg e] at hafter
        exact absurd hafter hbefore
    | released id' =>
      rw [stamp_released] at hafter
      by_cases e : id'.index = id.index
      · rw [if_pos e] at hafter
        exact absurd (congrArg Prod.snd hafter) Bool.false_ne_true
      · rw [if_neg e] at hafter
        exact absurd hafter hbefore

/-! ## What marks say of handles -/

/-- What the marks `h` tell of the handles in them. `live` are the slots filled now.
    `asked id p` says that each way of using `id` now succeeds just when `p` does, and
    `wakes id` that `id` does not resolve and some next operation makes it. -/
structure Tells (h : List Mark) (live : UInt32 → Prop) (asked : SlotId → Prop → Prop) (wakes : SlotId → Prop) :
    Prop where
  /-- A handle bears the number of releases of its slot. -/
  issued {later earlier : List Mark} {id : SlotId} : h = later ++ .issued id :: earlier →
    id.generation.toNat = releases id.index earlier % UInt32.size
  /-- It resolves when its slot is filled and the number is the same again. -/
  resolves {later earlier : List Mark} {id : SlotId} : h = later ++ .issued id :: earlier → .cleared ∉ later →
    asked id (live id.index ∧ releases id.index h % UInt32.size = releases id.index earlier % UInt32.size)
  /-- After its release it does not, before the slot has been released 2^32 times with that one. -/
  removed {later earlier : List Mark} {id : SlotId} : h = later ++ .released id :: earlier → .cleared ∉ later →
    releases id.index later + 1 < UInt32.size → asked id False
  /-- Before that many releases no handle is issued twice. -/
  distinct {later middle earlier : List Mark} {id id' : SlotId} :
    h = later ++ .issued id :: (middle ++ .issued id' :: earlier) → .cleared ∉ middle →
      releases id.index middle < UInt32.size → id ≠ id'
  /-- A handle that did not resolve begins to when the number has come round. -/
  wraps {later earlier : List Mark} {id : SlotId} : h = later ++ .issued id :: earlier → .cleared ∉ later → wakes id →
    ∃ k, 0 < k ∧ releases id.index h = releases id.index earlier + k * UInt32.size

theorem Sound.generation (hs : Sound (.issued id :: h)) : UInt32.ofNat (releases id.index h) = id.generation :=
  congrArg Prod.fst hs.1

/-- A handle issued again, with no clear in between, was issued after whole rounds of releases. -/
theorem Sound.rounds (hs : Sound (.issued id :: (later ++ .issued id :: earlier))) (hc : .cleared ∉ later) :
    ∃ k, 0 < k ∧ releases id.index later = k * UInt32.size := by
  have hold : Sound (.issued id :: earlier) := hs.2.of_append
  have hmod := ofNat_eq_iff.mp (hs.generation.trans hold.generation.symm)
  rw [releases_append hc, releases] at hmod
  have hpos : releases id.index later ≠ 0 := by
    intro hzero
    have hfree : filled id.index (later ++ .issued id :: earlier) = false := congrArg Prod.snd hs.1
    rw [filled_of_releases hc hzero] at hfree
    cases hfree
  have hsize : UInt32.size = 4294967296 := rfl
  rw [hsize] at hmod ⊢
  exact ⟨releases id.index later / 4294967296, by omega, by omega⟩

/-- Sound marks tell what they should, of whatever has the stamps they say. -/
theorem tells {live : UInt32 → Prop} {asked : SlotId → Prop → Prop} {wakes : SlotId → Prop} (hs : Sound h)
    (hlive : ∀ i, live i ↔ filled i h = true)
    (hasked : ∀ id p, (stamp id.index h = (id.generation, true) ↔ p) → asked id p)
    (hwakes : ∀ id, wakes id → Sound (.issued id :: h)) : Tells h live asked wakes where
  issued := by
    intro later earlier id he
    have hissued : Sound (.issued id :: earlier) := Sound.of_append (he ▸ hs)
    rw [← hissued.generation, UInt32.toNat_ofNat']
  resolves := by
    intro later earlier id he hc
    refine hasked id _ ?_
    have hissued : Sound (.issued id :: earlier) := Sound.of_append (he ▸ hs)
    rw [hlive, ← ofNat_eq_iff, hissued.generation, stamp, Prod.mk.injEq]
    exact and_comm
  removed := by
    intro later earlier id he hc hlt
    refine hasked id False (iff_false_intro fun hstamp => ?_)
    have hreleased : Sound (.released id :: earlier) := Sound.of_append (he ▸ hs)
    have hold : stamp id.index earlier = (id.generation, true) := hreleased.1
    have hmod := ofNat_eq_iff.mp ((congrArg Prod.fst hstamp).trans (congrArg Prod.fst hold).symm)
    have hsize : UInt32.size = 4294967296 := rfl
    rw [he, releases_append hc, releases, if_pos rfl, hsize] at hmod
    omega
  distinct := by
    rintro later middle earlier id id' he hc hlt rfl
    obtain ⟨k, hk, hr⟩ := Sound.rounds (Sound.of_append (he ▸ hs)) hc
    have hround := Nat.le_mul_of_pos_left UInt32.size hk
    omega
  wraps := by
    intro later earlier id he hc hw
    obtain ⟨k, hk, hr⟩ := Sound.rounds (he ▸ hwakes id hw) hc
    refine ⟨k, hk, ?_⟩
    rw [he, releases_append hc, releases, hr, Nat.add_comm]

end Mark

namespace Arena

variable {α : Type}

/-! ## Stamps of an arena -/

/-- The generation of the slot at `i`, and whether it is filled. A slot that is not there is
    like one that was never filled. -/
def stamp (a : Arena α) (i : UInt32) : UInt32 × Bool :=
  match a.slots[i.toNat]? with
  | none => (0, false)
  | some s => (s.generation, s.value.isSome)

theorem stamp_congr {a b : Arena α} {i : UInt32} (h : b.slots[i.toNat]? = a.slots[i.toNat]?) :
    b.stamp i = a.stamp i := by
  simp only [stamp, h]

theorem isSome_slot?_iff {a : Arena α} {i : UInt32} : (a.slot? i).isSome = true ↔ (a.stamp i).2 = true := by
  unfold slot? stamp
  cases a.slots[i.toNat]? with
  | none => simp
  | some s => cases hv : s.value <;> simp [Option.filter, hv]

theorem isSome_get?_iff {a : Arena α} {id : SlotId} :
    (a.get? id).isSome = true ↔ a.stamp id.index = (id.generation, true) := by
  unfold get? stamp
  cases a.slots[id.index.toNat]? with
  | none => simp
  | some s => by_cases hg : s.generation = id.generation <;> simp [Option.filter, hg]

theorem stamp_modifySlot (a : Arena α) (i j : UInt32) {f : Slot α → Slot α} (hf : Relinks f) :
    (a.modifySlot i f).stamp j = a.stamp j := by
  simp only [stamp, slots_modifySlot]
  cases a.slots[j.toNat]? with
  | none => by_cases e : j = i <;> simp [e]
  | some s =>
    obtain ⟨hv, hg⟩ := hf s
    by_cases e : j = i <;> by_cases hs : s.value.isSome <;> simp [e, hs, hv, hg]

theorem stamp_set (a : Arena α) (id : SlotId) (w : α) (j : UInt32) : (a.set id w).2.stamp j = a.stamp j := by
  cases hg : a.get? id with
  | none => simp only [set, hg]
  | some v =>
    have hstamp := isSome_get?_iff.mp (Option.isSome_iff_exists.mpr ⟨v, hg⟩)
    rw [set_eq (get?_eq_some_iff.mp hg)]
    by_cases e : id.index = j
    · subst e
      unfold stamp at hstamp ⊢
      cases hs : a.slots[id.index.toNat]? with
      | none => simp [hs] at hstamp
      | some s =>
        simp only [hs, Prod.mk.injEq] at hstamp
        simp [Array.getElem?_modify, hs, hstamp.2]
    · exact stamp_congr (by simp [Array.getElem?_modify, toNat_ne e])

/-- An insertion fills a slot that was not, at the generation that the slot had. -/
theorem insert_stamp {a b : Arena α} {free : List UInt32} (h : a.Tidy free) {mem : Allocator} {v : α} {id : SlotId}
    (hi : a.insert mem v = .ok (id, b)) :
    a.stamp id.index = (id.generation, false) ∧
      ∀ j, b.stamp j = if id.index = j then (id.generation, true) else a.stamp j := by
  rcases insert_cases h mem v with ⟨i, rest, s, -, hs, hv, -, he⟩ | ⟨-, -, he⟩
  · rw [he] at hi
    cases hi
    refine ⟨by simp [stamp, hs, hv], fun j => ?_⟩
    by_cases e : i = j
    · subst e
      simp [stamp, Array.getElem?_modify, hs]
    · rw [if_neg e]
      exact stamp_congr (by simp [Array.getElem?_modify, toNat_ne e])
  · rw [he] at hi
    obtain ⟨rfl, hlt, hb⟩ := append_ok hi
    have hn := toNat_ofNat_size hlt
    rw [hb]
    refine ⟨by simp [stamp, hn], fun j => ?_⟩
    by_cases e : UInt32.ofNat a.slots.size = j
    · subst e
      simp [stamp, hn]
    · have hne : j.toNat ≠ a.slots.size := fun hj => e (UInt32.toNat_inj.mp (by rw [hn, hj]))
      rw [if_neg e]
      exact stamp_congr (by simp [Array.getElem?_push, hne])

/-- A removal empties the slot of its handle and raises its generation. -/
theorem remove_stamp {a b : Arena α} {id : SlotId} {v : α} (hr : a.remove id = some (v, b)) :
    a.stamp id.index = (id.generation, true) ∧
      ∀ j, b.stamp j = if id.index = j then (id.generation + 1, false) else a.stamp j := by
  obtain ⟨w, hg, he⟩ := Option.map_eq_some_iff.mp hr
  cases he
  have hstamp := isSome_get?_iff.mp (Option.isSome_iff_exists.mpr ⟨v, hg⟩)
  refine ⟨hstamp, fun j => ?_⟩
  by_cases e : id.index = j
  · subst e
    unfold stamp at hstamp ⊢
    cases hs : a.slots[id.index.toNat]? with
    | none => simp [hs] at hstamp
    | some s =>
      simp only [hs, Prod.mk.injEq] at hstamp
      simp [Array.getElem?_modify, hs, hstamp.1]
  · rw [if_neg e]
    exact stamp_congr (by simp [Array.getElem?_modify, toNat_ne e])

/-! ## Dated by a history -/

/-- Each slot has the stamp that the marks say. -/
structure Dated (a : Arena α) (h : List Mark) : Prop where
  sound : Mark.Sound h
  stamp_eq : ∀ i, a.stamp i = Mark.stamp i h

namespace Dated

variable {a b : Arena α} {h : List Mark} (hd : a.Dated h)
include hd

theorem congr (he : ∀ i, b.stamp i = a.stamp i) : b.Dated h := ⟨hd.sound, fun i => (he i).trans (hd.stamp_eq i)⟩

theorem insert {free : List UInt32} (ht : a.Tidy free) {mem : Allocator} {v : α} {id : SlotId}
    (hi : a.insert mem v = .ok (id, b)) : b.Dated (.issued id :: h) := by
  obtain ⟨hbefore, hafter⟩ := insert_stamp ht hi
  rw [hd.stamp_eq] at hbefore
  refine ⟨⟨hbefore, hd.sound⟩, fun i => ?_⟩
  rw [hafter, hd.stamp_eq, Mark.stamp_issued]
  split
  case isTrue e => rw [← e, hbefore]
  case isFalse => rfl

theorem remove {id : SlotId} {v : α} (hr : a.remove id = some (v, b)) : b.Dated (.released id :: h) := by
  obtain ⟨hbefore, hafter⟩ := remove_stamp hr
  rw [hd.stamp_eq] at hbefore
  refine ⟨⟨hbefore, hd.sound⟩, fun i => ?_⟩
  rw [hafter, hd.stamp_eq, Mark.stamp_released]
  split
  case isTrue e => rw [← e, hbefore]
  case isFalse => rfl

theorem clear : a.clear.Dated (.cleared :: h) := by
  refine ⟨hd.sound, fun i => ?_⟩
  rw [Mark.stamp_cleared]
  simp [Arena.clear, stamp]

/-- More room is no matter. -/
theorem reserve {mem : Allocator} {n : Nat} (hr : a.reserve mem n = .ok b) : b.Dated h := by
  rw [(reserve_ok hr).1]
  exact hd.congr fun _ => rfl

end Dated

theorem dated_withCapacity (n : Nat) : (withCapacity n : Arena α).Dated [] :=
  ⟨trivial, fun i => by simp [withCapacity, stamp, Mark.stamp, Mark.releases, Mark.filled]⟩

/-! ## Histories -/

def Op.mark? : Op α → Reply α → Option Mark
  | .insert _, .inserted id => some (.issued id)
  | .remove id, .value (some _) => some (.released id)
  | .clear, _ => some .cleared
  | _, _ => none

/-- What operations do to the handles of `a`. -/
def history (ops : List (Allocator × Op α)) (a : Arena α) : List Mark := Mark.trace apply Op.mark? ops a

example :
    history [(.grants, .insert 'a'), (.grants, .remove ⟨0, 0⟩), (.grants, .remove ⟨0, 0⟩), (.grants, .insert 'b')]
      (withCapacity 0) = [.issued ⟨0, 1⟩, .released ⟨0, 0⟩, .issued ⟨0, 0⟩] := by decide

theorem Dated.apply {a : Arena α} {h : List Mark} {free : List UInt32} (hd : a.Dated h) (ht : a.Tidy free)
    (mem : Allocator) (op : Op α) :
    (apply mem op a).2.Dated ((op.mark? (apply mem op a).1).toList ++ h) := by
  cases op with
  | insert v =>
    cases hi : a.insert mem v with
    | error e => simp only [Arena.apply, hi]; exact hd
    | ok p => simp only [Arena.apply, hi]; exact hd.insert ht hi
  | remove id =>
    cases hr : a.remove id with
    | none => simp only [Arena.apply, hr]; exact hd
    | some p => simp only [Arena.apply, hr]; exact hd.remove hr
  | set id w => exact hd.congr (stamp_set a id w)
  | reserve n =>
    cases hr : a.reserve mem n with
    | error e => simp only [Arena.apply, hr]; exact hd
    | ok b => simp only [Arena.apply, hr]; exact hd.reserve hr
  | clear => exact hd.clear
  | link i prev next => exact hd.congr fun j => stamp_modifySlot a i j fun _ => ⟨rfl, rfl⟩

theorem Dated.applyAll {a : Arena α} {h : List Mark} {free : List UInt32} (hd : a.Dated h) (ht : a.Tidy free)
    (ops : List (Allocator × Op α)) : (applyAll ops a).2.Dated (history ops a ++ h) := by
  induction ops generalizing a h free with
  | nil => exact hd
  | cons p ops ih =>
    obtain ⟨mem, op⟩ := p
    obtain ⟨free', ht', -, -⟩ := ht.apply mem op
    have := ih (hd.apply ht mem op) ht'
    rwa [← List.append_assoc] at this

/-! ## Uses of a handle -/

/-- Each way of using `id` succeeds just when `p`. -/
structure Answers (a : Arena α) (id : SlotId) (p : Prop) : Prop where
  get : (a.get? id).isSome = true ↔ p
  set : ∀ v, (a.set id v).1.isSome = true ↔ p
  contains : a.contains id = true ↔ p
  remove : (a.remove id).isSome = true ↔ p

theorem set_fst (a : Arena α) (id : SlotId) (v : α) : (a.set id v).1 = a.get? id := by
  unfold set
  cases h : a.get? id <;> rfl

theorem Dated.answers {a : Arena α} {h : List Mark} (hd : a.Dated h) {id : SlotId} {p : Prop}
    (hp : Mark.stamp id.index h = (id.generation, true) ↔ p) : a.Answers id p := by
  have hget : (a.get? id).isSome = true ↔ p := by rw [isSome_get?_iff, hd.stamp_eq, hp]
  refine ⟨hget, fun v => ?_, hget, ?_⟩
  · rw [set_fst, hget]
  · rw [Arena.remove, Option.isSome_map, hget]

/-- Some next operation makes `id` resolve, which does not. -/
def Wakes (a : Arena α) (id : SlotId) : Prop :=
  a.get? id = none ∧ ∃ mem op, ((apply mem op a).2.get? id).isSome = true

/-- An operation that makes a handle resolve issues it. -/
theorem Dated.issued_next {a b : Arena α} {h : List Mark} {m : Option Mark} (hd : a.Dated h)
    (hnext : b.Dated (m.toList ++ h)) {id : SlotId} (hnone : a.get? id = none) (hsome : (b.get? id).isSome = true) :
    Mark.Sound (.issued id :: h) := by
  have hbefore : Mark.stamp id.index h ≠ (id.generation, true) := by
    intro hstamp
    rw [← hd.stamp_eq, ← isSome_get?_iff, hnone] at hstamp
    exact Bool.false_ne_true hstamp
  have hafter := (hnext.stamp_eq id.index).symm.trans (isSome_get?_iff.mp hsome)
  have hmark := Mark.issued_of_stamp hnext.sound hbefore hafter
  have hsound := hnext.sound
  rwa [hmark] at hsound

theorem Dated.tells {a : Arena α} {h : List Mark} (hd : a.Dated h) {asked : SlotId → Prop → Prop}
    {wakes : SlotId → Prop} (hasked : ∀ id p, (Mark.stamp id.index h = (id.generation, true) ↔ p) → asked id p)
    (hwakes : ∀ id, wakes id → Mark.Sound (.issued id :: h)) :
    Mark.Tells h (fun i => (a.slot? i).isSome = true) asked wakes := by
  refine Mark.tells hd.sound (fun i => ?_) hasked hwakes
  rw [isSome_slot?_iff, hd.stamp_eq]
  rfl

theorem history_tells (n : Nat) (ops : List (Allocator × Op α)) :
    let a := (applyAll ops (withCapacity n)).2
    Mark.Tells (history ops (withCapacity n)) (fun i => (a.slot? i).isSome = true) a.Answers a.Wakes := by
  intro a
  obtain ⟨free, ht, -⟩ := (tidy_withCapacity (α := α) n).applyAll ops
  have hd : a.Dated (history ops (withCapacity n)) := by
    simpa using (dated_withCapacity n).applyAll (tidy_withCapacity n) ops
  refine hd.tells (fun id p hp => hd.answers hp) fun id hw => ?_
  obtain ⟨hnone, mem, op, hsome⟩ := hw
  exact hd.issued_next (hd.apply ht mem op) hnone hsome

end Arena

end Recency

import Recency.Proofs.Session.Trail
/-
  Recency.Proofs.Session.Metering — the counters account for every entry and every read.

  Two laws. Every entry that was counted in is still held, or was counted out by its
  cause, or was dropped by a clear (`Counters.Balance`). Each small change of the cache keeps that, so
  it holds at every moment, also where an abort has unwound an operation half way.

  What was asked and answered is counted as well. A read that finds an expired entry counts
  its miss at once and answers after the callback: until then the counter is one ahead of
  the answers (`Op.owes`). An abort would leave it so, and therefore this law is one of runs without aborts.
-/

namespace Recency

variable {κ ν : Type}

/-! ## Entries -/

/-- How many entries were dropped by clearing. -/
def clearedIn (journal : List (Event κ ν)) : Nat := (leftIn journal).countP (·.2 = .cleared)

/-- Of the entries that were counted in, `held` are there and `cleared` were cleared. -/
def Counters.Balance (c : Counters) (held cleared : Nat) : Prop :=
  c.insertNew = UInt64.ofNat held + c.evicted + c.expired + c.removed + UInt64.ofNat cleared

namespace Counters.Balance

variable {c : Counters} {held cleared : Nat}

theorem enters (h : c.Balance held cleared) : (c.bump .insertNew).Balance (held + 1) cleared := by
  simp only [Balance, bump, UInt64.ofNat_add] at h ⊢
  grind

theorem leaves (h : c.Balance (held + 1) cleared) {m : Metric} (hm : m = .evicted ∨ m = .expired ∨ m = .removed) :
    (c.bump m).Balance held cleared := by
  simp only [Balance, UInt64.ofNat_add] at h ⊢
  rcases hm with rfl | rfl | rfl
  · simp only [bump]; grind
  · simp only [bump]; grind
  · simp only [bump]; grind

theorem clears (h : c.Balance held cleared) : c.Balance 0 (held + cleared) := by
  simp only [Balance, UInt64.ofNat_add] at h ⊢
  grind

theorem calls (h : c.Balance held cleared) {m : Metric} (hm : m.ofCalls = true) :
    (c.bump m).Balance held cleared := by
  cases m with
  | getHit | getMiss | clear => exact h
  | insertNew | insertUpdate | evicted | expired | removed => cases hm

end Counters.Balance

variable [DecidableEq κ]

namespace Plain

structure Balanced (p : Plain κ ν) : Prop where
  keys_nodup : (p.entries.map (·.key)).Nodup
  balance : p.counters.Balance p.entries.length (clearedIn p.journal)

variable {p q : Plain κ ν}

theorem Change.balanced (h : Change p q) (hp : p.Balanced) : q.Balanced := by
  obtain ⟨hn, hb⟩ := hp
  refine ⟨h.keys_nodup hn, ?_⟩
  have hleave : ∀ e ∈ p.entries, (p.entries.filter (·.key ≠ e.key)).length + 1 = p.entries.length := fun e he => by
    have := (perm_cons_filter_key hn he).length_eq
    simpa using this.symm
  cases h with
  | enter _ _ h =>
    obtain ⟨room, -, rfl⟩ := enter_ok h
    exact hb.enters
  | @evict e q h =>
    obtain ⟨hlast, n, rfl⟩ := evict?_eq_some h
    obtain ⟨before, hbefore⟩ := List.getLast?_eq_some_iff.mp hlast
    have hl : p.entries.dropLast.length + 1 = p.entries.length := by rw [hbefore]; simp
    rw [← hl] at hb
    exact hb.leaves (.inl rfl)
  | @expire e he =>
    rw [← hleave e he] at hb
    exact hb.leaves (.inr (.inl rfl))
  | @remove e he =>
    rw [← hleave e he] at hb
    exact hb.leaves (.inr (.inr rfl))
  | dropAll =>
    have hc : clearedIn p.dropAll.journal = p.entries.length + clearedIn p.journal := by
      have hleft := (dropAll_since p : Since true .clear p _ _).left
      simp [clearedIn, hleft, List.countP_append, List.countP_map, Function.comp_def]
    show p.counters.Balance 0 (clearedIn p.dropAll.journal)
    rw [hc]
    exact hb.clears
  | @front e he =>
    have hl : (p.front e).entries.length = p.entries.length := hleave e he
    show p.counters.Balance (p.front e).entries.length _
    rw [hl]
    exact hb
  | @overwrite e value deadline he =>
    have hl : (p.overwrite e value deadline).entries.length = p.entries.length := hleave e he
    show p.counters.Balance (p.overwrite e value deadline).entries.length _
    rw [hl]
    exact hb
  | count hm => exact hb.calls hm
  | note n => exact hb
  | advance step => exact hb
  | memory memory => exact hb

omit [DecidableEq κ] in
theorem Balanced.primed (hp : p.Balanced) (op : Op κ ν) : (p.primed op).Balanced := by
  obtain ⟨hn, hb⟩ := hp
  cases op with
  | resize asked =>
    show (p.setBound asked).Balanced
    unfold setBound
    split <;> exact ⟨hn, hb⟩
  | _ => exact ⟨hn, hb⟩

end Plain

/-! ## Reads and overwrites -/

section Answers

variable {κ ν : Type}

/-- The answer is a value that was found. -/
def Op.hits : Op κ ν → Reply κ ν → Bool
  | .get _, .hit (some _) | .peek _, .hit (some _) | .getOrPut _ _ _ _, .got _ true => true
  | _, _ => false

/-- The answer is that nothing was found, or what came of storing something then. -/
def Op.misses : Op κ ν → Reply κ ν → Bool
  | .get _, .hit none | .peek _, .hit none => true
  | .getOrPut _ _ _ _, .got _ false | .getOrPut _ _ _ _, .refused _ => true
  | _, _ => false

/-- The answer is that of a store, under a key that was `held`. -/
def Op.overwrites (held : κ → Bool) : Op κ ν → Reply κ ν → Bool
  | .put k _ _ _, .unit | .put k _ _ _, .ok => held k
  | _, _ => false

/-- Has counted a miss by the time it waits for a callback, and answers with it later. -/
def Op.owes : Op κ ν → Bool
  | .get _ | .peek _ => true
  | _ => false

/-- Reads the cache and counts nothing. -/
def Op.uncounted : Op κ ν → Bool
  | .has _ | .keys | .values | .visit _ => true
  | _ => false

end Answers

/-- One if `b`. -/
def one (b : Bool) : UInt64 := UInt64.ofNat b.toNat

/-- Has an entry for `k`. -/
def holds (l : List (Entry κ ν)) (k : κ) : Bool := l.any (·.key = k)

namespace Plain

/-- Neither reads nor overwrites were counted. -/
structure SameReads (p q : Plain κ ν) : Prop where
  hits : q.counters.getHits = p.counters.getHits
  misses : q.counters.getMisses = p.counters.getMisses
  updates : q.counters.insertUpdates = p.counters.insertUpdates

/-- What a piece of `op` adds to the counters of reads and overwrites; `owed`, if the
    operation waited with a miss that it had counted. -/
def Tallies (op : Op κ ν) (owed : Bool) (p : Plain κ ν) : Result κ ν → Prop
  | .ok (.done reply) q =>
    q.counters.getHits = p.counters.getHits + one (op.hits reply) ∧
      q.counters.getMisses + one owed = p.counters.getMisses + one (op.misses reply) ∧
      q.counters.insertUpdates = p.counters.insertUpdates + one (op.overwrites (holds p.entries) reply)
  | .ok (.release _ _) q =>
    q.counters.getHits = p.counters.getHits ∧
      q.counters.getMisses + one owed = p.counters.getMisses + one op.owes ∧
      q.counters.insertUpdates = p.counters.insertUpdates
  | .error _ _ => True

variable {p q r : Plain κ ν}

namespace SameReads

omit [DecidableEq κ] in
theorem refl (p : Plain κ ν) : SameReads p p := ⟨rfl, rfl, rfl⟩

omit [DecidableEq κ] in
theorem trans (h : SameReads p q) (h' : SameReads q r) : SameReads p r :=
  ⟨h'.hits.trans h.hits, h'.misses.trans h.misses, h'.updates.trans h.updates⟩

omit [DecidableEq κ] in
theorem evict {e : Entry κ ν} (h : p.evict? = some (e, q)) : SameReads p q := by
  obtain ⟨-, n, rfl⟩ := evict?_eq_some h
  exact ⟨rfl, rfl, rfl⟩

omit [DecidableEq κ] in
theorem enter {k : κ} {value : ν} {deadline : Option Instant} (h : p.enter k value deadline = .ok q) :
    SameReads p q := by
  obtain ⟨room, -, rfl⟩ := enter_ok h
  exact ⟨rfl, rfl, rfl⟩

theorem reap (victims : List (Entry κ ν)) (p : Plain κ ν) : SameReads p (p.reap victims) := by
  induction victims generalizing p with
  | nil => exact .refl p
  | cons e victims ih => exact trans (q := (p.leave e .expired).count .expired) ⟨rfl, rfl, rfl⟩ (ih _)

omit [DecidableEq κ] in
theorem setBound (asked : UInt64) (p : Plain κ ν) : SameReads p (p.setBound asked) := by
  unfold Plain.setBound
  split <;> exact ⟨rfl, rfl, rfl⟩

end SameReads

theorem not_holds {k : κ} (h : p.find? k = none) : holds p.entries k = false := by
  rw [Bool.eq_false_iff]
  intro hk
  obtain ⟨e, he, hke⟩ := List.any_eq_true.mp hk
  exact List.find?_eq_none.mp h e he hke

theorem holds_of_find? {k : κ} {e : Entry κ ν} (h : p.find? k = some e) : holds p.entries k = true := by
  obtain ⟨he, hk⟩ := find?_eq_some h
  exact List.any_eq_true.mpr ⟨e, he, decide_eq_true hk⟩

/-! ## Tasks -/

variable {op : Op κ ν}

/-- A piece that waits with nothing owed. -/
theorem tallies_release (h : SameReads p q) (ho : op.owes = false) {victim : Option (Entry κ ν)} {task : Task κ ν} :
    Tallies op false p (.ok (.release victim task) q) :=
  ⟨h.hits, by rw [h.misses, ho], h.updates⟩

theorem tallies_done (h : SameReads p q) {reply : Reply κ ν} (hh : op.hits reply = false)
    (hm : op.misses reply = false) (hu : op.overwrites (holds p.entries) reply = false) :
    Tallies op false p (.ok (.done reply) q) := by
  refine ⟨?_, ?_, ?_⟩
  · rw [h.hits, hh]; exact (UInt64.add_zero _).symm
  · rw [h.misses, hm]
  · rw [h.updates, hu]; exact (UInt64.add_zero _).symm

theorem resumePut_tallies (k : κ) (value : ν) (ttl : Option Duration) (deadline : Option Instant)
    (refusal : OnRefusal) (p : Plain κ ν) :
    Tallies (.put k value ttl refusal) false p (p.resumePut k value deadline refusal) := by
  unfold resumePut
  cases hk : p.find? k with
  | some e =>
    have hu : Op.overwrites (holds p.entries) (.put k value ttl refusal) (Cache.stored refusal) = true := by
      have := holds_of_find? hk
      cases refusal <;> exact this
    refine ⟨?_, ?_, ?_⟩
    · cases refusal <;> exact (UInt64.add_zero _).symm
    · cases refusal <;> rfl
    · rw [hu]; rfl
  | none =>
    have hheld := not_holds hk
    have hfinish : Tallies (.put k value ttl refusal) false p (p.finishPut k value deadline refusal) := by
      unfold finishPut
      cases he : p.enter k value deadline with
      | error e =>
        cases refusal with
        | abort => trivial
        | report => exact tallies_done (.refl p) rfl rfl rfl
      | ok q => cases refusal <;> exact tallies_done (.enter he) rfl rfl hheld
    simp only
    split
    · exact hfinish
    · cases he : p.evict? with
      | none => exact hfinish
      | some r => exact tallies_release (.evict he) rfl

theorem resumeGetOrPut_tallies (k : κ) (value : ν) (ttl : Duration) (refusal : OnRefusal) (p : Plain κ ν) :
    Tallies (.getOrPut k value ttl refusal) false p (p.resumeGetOrPut k value ttl refusal) := by
  unfold resumeGetOrPut
  cases hk : p.find? k with
  | some e =>
    simp only
    split
    · have hs : SameReads p ((p.leave e .expired).count .expired) := ⟨rfl, rfl, rfl⟩
      exact tallies_release hs rfl
    · exact ⟨rfl, rfl, (UInt64.add_zero _).symm⟩
  | none =>
    have hfinish : Tallies (.getOrPut k value ttl refusal) false p (p.finishGetOrPut k value ttl refusal) := by
      unfold finishGetOrPut
      cases he : (p.count .getMiss).enter k value (p.clock.deadline ttl) with
      | error e =>
        cases refusal with
        | abort => trivial
        | report => exact ⟨(UInt64.add_zero _).symm, UInt64.add_zero _, (UInt64.add_zero _).symm⟩
      | ok q =>
        have h := SameReads.enter he
        exact ⟨h.hits.trans (UInt64.add_zero _).symm, (UInt64.add_zero _).trans h.misses,
          h.updates.trans (UInt64.add_zero _).symm⟩
    simp only
    split
    · exact hfinish
    · cases he : p.evict? with
      | none => exact hfinish
      | some r => exact tallies_release (.evict he) rfl

theorem resumeShrink_tallies {asked : UInt64} (h : SameReads p q) (bound : UInt64) (dropped : Nat) :
    Tallies (.resize asked) false p (q.resumeShrink bound dropped) := by
  have hend : Tallies (.resize asked) false p (.ok (.done .unit) (q.note (.resized bound dropped))) :=
    tallies_done (h.trans ⟨rfl, rfl, rfl⟩) rfl rfl rfl
  unfold resumeShrink
  split
  · cases he : q.evict? with
    | none => exact hend
    | some r => exact tallies_release (h.trans (.evict he)) rfl
  · exact hend

theorem notify_tallies (h : SameReads p q) (ho : op.owes = false) {reply : Reply κ ν} (hh : op.hits reply = false)
    (hm : op.misses reply = false) (hu : op.overwrites (holds p.entries) reply = false) (victims : List (Entry κ ν))
    (ending : Option Note) : Tallies op false p (q.resume (.notify victims ending reply)) := by
  cases victims with
  | cons victim victims => exact tallies_release h ho
  | nil =>
    cases ending with
    | none => exact tallies_done h hh hm hu
    | some n => exact tallies_done (h.trans ⟨rfl, rfl, rfl⟩) hh hm hu

theorem resume_tallies {begun : Plain κ ν} {task : Task κ ν} (h : Awaits begun op task) (p : Plain κ ν) :
    Tallies op op.owes p (p.resume task) := by
  -- the miss of a read was counted when it began to wait
  have hread : ∀ {op : Op κ ν}, op.hits (.hit none) = false → op.misses (.hit none) = true → op.owes = true →
      op.overwrites (holds p.entries) (.hit none) = false → Tallies op op.owes p (.ok (.done (.hit none)) p) := by
    intro op hh hm ho hu
    refine ⟨?_, ?_, ?_⟩
    · rw [hh]; exact (UInt64.add_zero _).symm
    · rw [hm, ho]
    · rw [hu]; exact (UInt64.add_zero _).symm
  cases h with
  | put k value ttl refusal => exact resumePut_tallies k value ttl _ refusal p
  | getOrPut k value ttl refusal => exact resumeGetOrPut_tallies k value ttl refusal p
  | get k => exact hread rfl rfl rfl rfl
  | peek k => exact hread rfl rfl rfl rfl
  | delete k => exact notify_tallies (.refl p) rfl rfl rfl rfl [] none
  | resize asked bound dropped => exact resumeShrink_tallies (.refl p) bound dropped
  | purge victims ending n => exact notify_tallies (.refl p) rfl rfl rfl rfl victims ending
  | clear victims ending => exact notify_tallies (.refl p) rfl rfl rfl rfl victims ending

/-! ## Operations -/

theorem read_tallies {k : κ} {touch : Bool} (hhit : ∀ v, op.hits (.hit v) = v.isSome)
    (hmiss : ∀ v, op.misses (.hit v) = v.isNone) (ho : op.owes = true)
    (hu : ∀ v, op.overwrites (holds p.entries) (.hit v) = false) : Tallies op false p (p.read k touch) := by
  unfold read
  cases hk : p.find? k with
  | none =>
    refine ⟨?_, ?_, ?_⟩
    · rw [hhit]; exact (UInt64.add_zero _).symm
    · rw [hmiss]; exact UInt64.add_zero _
    · rw [hu]; exact (UInt64.add_zero _).symm
  | some e =>
    simp only
    split
    · refine ⟨rfl, ?_, rfl⟩
      rw [ho]
      exact UInt64.add_zero _
    · refine ⟨?_, ?_, ?_⟩
      · rw [hhit]; cases touch <;> rfl
      · rw [hmiss]; cases touch <;> rfl
      · rw [hu]; cases touch <;> exact (UInt64.add_zero _).symm

theorem start_tallies (look : Index.Op κ → Reply κ ν) (op : Op κ ν) (p : Plain κ ν) :
    Tallies op false p (start look op p) := by
  have hsame : ∀ {op : Op κ ν} reply, op.hits reply = false → op.misses reply = false →
      op.overwrites (holds p.entries) reply = false → Tallies op false p (.ok (.done reply) p) :=
    fun reply => tallies_done (.refl p)
  cases op with
  | put k value ttl refusal => exact resumePut_tallies k value ttl _ refusal p
  | getOrPut k value ttl refusal => exact resumeGetOrPut_tallies k value ttl refusal p
  | get k => exact read_tallies (fun v => by cases v <;> rfl) (fun v => by cases v <;> rfl) rfl fun _ => rfl
  | peek k => exact read_tallies (fun v => by cases v <;> rfl) (fun v => by cases v <;> rfl) rfl fun _ => rfl
  | delete k =>
    simp only [start, delete]
    cases hk : p.find? k with
    | none => exact hsame _ rfl rfl rfl
    | some e =>
      have hs : SameReads p ((p.leave e .deleted).count .removed) := ⟨rfl, rfl, rfl⟩
      exact tallies_release hs rfl
  | resize asked => exact resumeShrink_tallies (.setBound asked p) _ 0
  | purge => exact notify_tallies (.reap _ p) rfl rfl rfl rfl _ _
  | clear => exact notify_tallies ⟨rfl, rfl, rfl⟩ rfl rfl rfl rfl _ _
  | metrics | snapshot | expose family limit =>
    simp only [start, withSnapshot]
    cases p.snapshot? with
    | none => trivial
    | some s => exact hsame _ rfl rfl rfl
  | advance step => exact tallies_done ⟨rfl, rfl, rfl⟩ rfl rfl rfl
  | memory memory => exact tallies_done ⟨rfl, rfl, rfl⟩ rfl rfl rfl
  | abort message => trivial
  | _ => exact hsame _ rfl rfl rfl

end Plain

/-! ## Snapshots -/

/-- A snapshot shows the counters as they are, how many entries there are, and the bound, and taking it
    changes nothing. -/
theorem Cache.Consistent.snapshot_shows {c d : Cache κ ν} (h : c.Consistent) {s : Snapshot}
    (hs : Cache.snapshot c = .ok s d) :
    d = c ∧ s.counters = c.counters ∧ s.length.toNat = c.entries.length ∧ s.capacity = c.bound ∧
      s.getCalls.toNat = c.counters.getHits.toNat + c.counters.getMisses.toNat := by
  simp only [Cache.snapshot, Action.bind_apply, Action.get_apply] at hs
  cases ht : c.counters.snapshot? c.size c.bound with
  | none =>
    rw [ht] at hs
    cases hs
  | some t =>
    rw [ht] at hs
    cases hs
    obtain ⟨hcounters, hlength, hcapacity, hcalls⟩ := Counters.snapshot?_eq_some_iff.mp ht
    exact ⟨rfl, hcounters, by rw [hlength, h.size_eq], hcapacity, hcalls⟩

/-! ## Along a run -/

omit [DecidableEq κ] in
/-- A call was answered with a value that was found. -/
def Piece.hits {σ : Type} (p : Piece σ κ ν) : Bool := p.reply?.any p.op.hits

omit [DecidableEq κ] in
/-- A call was answered with nothing found, or had to store something. -/
def Piece.misses {σ : Type} (p : Piece σ κ ν) : Bool := p.reply?.any p.op.misses

/-- A store was made under a key that was there. -/
def Piece.overwrites (p : Piece (Cache κ ν) κ ν) : Bool := p.reply?.any (p.op.overwrites (holds p.before.entries))

namespace Machine

/-- The counters tell what was answered, and which misses are yet to be. -/
structure Meters (ps : List (Piece (Cache κ ν) κ ν)) (c : Counters) (calls : List (Call κ ν)) : Prop where
  hits : c.getHits = UInt64.ofNat (ps.countP Piece.hits)
  misses : c.getMisses = UInt64.ofNat (ps.countP Piece.misses + calls.countP (·.op.owes))
  updates : c.insertUpdates = UInt64.ofNat (ps.countP Piece.overwrites)

variable {ps : List (Piece (Cache κ ν) κ ν)} {calls calls' : List (Call κ ν)}

omit [DecidableEq κ] in
theorem countP_cons_toNat {α : Type} (f : α → Bool) (a : α) (l : List α) :
    (a :: l).countP f = l.countP f + (f a).toNat := by
  rw [List.countP_cons]
  cases f a <;> rfl

/-- What was owed is counted on both sides. -/
theorem settle_owed {misses before paid : UInt64} {n : Nat} {owed : Bool}
    (h : misses + one owed = before + paid) (hb : before = UInt64.ofNat (n + owed.toNat)) :
    misses = UInt64.ofNat n + paid := by
  rw [hb, UInt64.ofNat_add] at h
  unfold one at h
  grind

/-- A piece that tallies keeps the counters in step, or aborts. -/
theorem Meters.lands {op : Op κ ν} (depth : Nat) {c : Cache κ ν}
    {r : EStateM.Result Abort (Cache κ ν) (Progress κ ν)} {owed : Bool} (h : Meters ps c.counters calls')
    (hcalls : calls'.countP (·.op.owes) = calls.countP (·.op.owes) + owed.toNat)
    (ht : Plain.Tallies op owed c.view (Cache.seen r)) :
    Engine.Lands (fun d calls => (∀ p ∈ ⟨op, depth, c, r⟩ :: ps, p.abort? = none) →
      Meters (⟨op, depth, c, r⟩ :: ps) d.counters calls) op calls r := by
  obtain ⟨hh, hm, hu⟩ := h
  rw [hcalls, ← Nat.add_assoc] at hm
  cases r with
  | error a d =>
    intro ha
    cases ha _ List.mem_cons_self
  | ok progress d =>
    cases progress with
    | done reply =>
      intro _
      obtain ⟨h1, h2, h3⟩ := ht
      refine ⟨?_, ?_, ?_⟩
      · rw [countP_cons_toNat, UInt64.ofNat_add, ← hh]
        exact h1
      · have h2 := (settle_owed h2 hm).trans (UInt64.ofNat_add _ _).symm
        rw [countP_cons_toNat, Nat.add_right_comm]
        exact h2
      · rw [countP_cons_toNat, UInt64.ofNat_add, ← hu]
        exact h3
    | release victim task =>
      intro _
      obtain ⟨h1, h2, h3⟩ := ht
      refine ⟨?_, ?_, ?_⟩
      · rw [countP_cons_toNat, UInt64.ofNat_add, ← hh]
        exact h1.trans (UInt64.add_zero _).symm
      · have h2 := (settle_owed h2 hm).trans (UInt64.ofNat_add _ _).symm
        rw [countP_cons_toNat, countP_cons_toNat, ← Nat.add_assoc]
        exact h2
      · rw [countP_cons_toNat, UInt64.ofNat_add, ← hu]
        exact h3.trans (UInt64.add_zero _).symm

/-- What a run so far tells of reads and overwrites. -/
structure Metered (ps : List (Piece (Cache κ ν) κ ν)) (c : Cache κ ν) (calls : List (Call κ ν)) : Prop where
  steady : c.Steady
  meters : (∀ p ∈ ps, p.abort? = none) → Meters ps c.counters calls
  uncounted : ∀ p ∈ ps, p.op.uncounted = true → p.after.counters = p.before.counters

theorem metered_lands {op : Op κ ν} {depth : Nat} {c : Cache κ ν}
    {r : EStateM.Result Abort (Cache κ ν) (Progress κ ν)} (owed : Bool) (h : Metered ps c calls')
    (hcalls : calls'.countP (·.op.owes) = calls.countP (·.op.owes) + owed.toNat) {pr : Plain.Result κ ν}
    (hr : Cache.Agrees r pr) (ht : Plain.Tallies op owed c.view pr)
    (hu : op.uncounted = true → Engine.Keeps (fun q : Plain κ ν => q.counters = c.counters) pr) :
    Engine.Lands (Metered (⟨op, depth, c, r⟩ :: ps)) op calls r := by
  have hc : ∀ p ∈ ⟨op, depth, c, r⟩ :: ps, p.op.uncounted = true → p.after.counters = p.before.counters := by
    intro p hp hop
    rcases List.mem_cons.mp hp with rfl | hp
    · have := hu hop
      rw [← hr.seen_eq] at this
      exact Piece.keeps_seen (p := ⟨op, depth, c, r⟩) this
    · exact h.uncounted p hp hop
  rw [← hr.seen_eq] at ht
  refine Engine.lands_of hr.keeps (fun ha => (h.meters ha).lands depth hcalls ht) ?_
  intro d calls hs hm
  refine ⟨hs, fun ha => ?_, hc⟩
  exact hm (fun p hp => ha p (List.mem_cons_of_mem _ hp)) ha

variable {cfg : Settings} {rs : List (Reaction κ ν)} {m : Machine (Cache κ ν) κ ν}

theorem Trail.metered (h : Trail Cache.engine (fun op => op.quiet = true) ⟨cfg.build, rs⟩ ps m)
    (hrs : ∀ r ∈ rs, ∀ op ∈ r.ops, op.quiet = true) : Metered ps m.cache m.control.calls := by
  refine h.carries_waiting ?_ ?_ ?_ hrs ⟨(Cache.build_steady cfg).1, fun _ => ⟨rfl, rfl, rfl⟩, fun _ hp => nomatch hp⟩
  · intro ps e c calls _ hJ
    exact ⟨hJ.steady.record e, fun ha => ⟨(hJ.meters ha).hits, (hJ.meters ha).misses, (hJ.meters ha).updates⟩,
      hJ.uncounted⟩
  · intro ps op calls c hop hJ
    refine metered_lands false hJ rfl (Cache.start_agrees hJ.steady hop) (Plain.start_tallies _ op _) ?_
    intro hu
    cases op with
    | has k | keys | values | visit stopAfter => rfl
    | _ => cases hu
  · intro ps p op task calls c ha hJ
    refine metered_lands _ hJ ?_ (Cache.resume_agrees hJ.steady task) (Plain.resume_tallies ha _) ?_
    · exact countP_cons_toNat (fun call : Call κ ν => call.op.owes) ⟨op, task⟩ calls
    · intro hu
      cases ha <;> cases hu

theorem Trail.balanced (h : Trail Cache.engine (fun op => op.quiet = true) ⟨cfg.build, rs⟩ ps m)
    (hrs : ∀ r ∈ rs, ∀ op ∈ r.ops, op.quiet = true) : m.cache.view.Balanced := by
  have hbuild : (Plain.ofSettings (κ := κ) (ν := ν) cfg).Balanced := by
    refine ⟨List.nodup_nil, ?_⟩
    show Counters.Balance .zero 0
      (clearedIn (if cfg.bound = 0 then [.noted (.defaultBound Cache.defaultBound)] else []))
    split <;> rfl
  refine h.carries_goes (I := fun _ p => p.Balanced) ?_ ?_ hrs hbuild
  · intro ps e p he hp
    refine ⟨hp.keys_nodup, ?_⟩
    cases e with
    | notified e => exact hp.balance
    | answered op reply => exact hp.balance
    | _ => cases he
  · intro ps p hp hI
    obtain ⟨-, ready, hready, hg⟩ := hp
    have hb : ready.Balanced := by
      rcases hready with rfl | rfl
      · exact hI
      · exact hI.primed p.op
    exact Plain.Changes.keeps (fun hc hq => hc.balanced hq) (Piece.keeps_seen hg.changes) hb

/-- At every moment, each entry ever counted in is held, or was counted out by its cause, or
    was cleared. When nothing is under way, and nothing was aborted, the hits, the misses and
    the overwrites are those that were answered, in callbacks or outside. What only looks
    changes no counter. -/
theorem Trail.counters_account (h : Trail Cache.engine (fun op => op.quiet = true) ⟨cfg.build, rs⟩ ps m)
    (hrs : ∀ r ∈ rs, ∀ op ∈ r.ops, op.quiet = true) :
    m.cache.counters.insertNew = UInt64.ofNat m.cache.entries.length + m.cache.counters.evicted +
        m.cache.counters.expired + m.cache.counters.removed + UInt64.ofNat (clearedIn m.cache.journal) ∧
      (∀ o, m.control = .finished o → (∀ p ∈ ps, p.abort? = none) →
        m.cache.counters.getHits = UInt64.ofNat (ps.countP Piece.hits) ∧
          m.cache.counters.getMisses = UInt64.ofNat (ps.countP Piece.misses) ∧
          m.cache.counters.insertUpdates = UInt64.ofNat (ps.countP Piece.overwrites)) ∧
      ∀ p ∈ ps, p.op.uncounted = true → p.after.counters = p.before.counters := by
  have hm := h.metered hrs
  refine ⟨(h.balanced hrs).balance, ?_, hm.uncounted⟩
  intro o ho ha
  obtain ⟨h1, h2, h3⟩ := hm.meters ha
  rw [ho] at h2
  exact ⟨h1, h2, h3⟩

/-- A read finds an expired entry, and the callback that it waits for stores, reads and clears. -/
theorem Trail.counters_account_nested :
    let s : Session (Cache Nat Nat) Nat Nat :=
      ⟨Settings.build ⟨2, .zero, true, none, false, 0⟩,
        [⟨some 1, 1, [.put 2 20 none .abort, .put 2 21 none .abort, .get 2, .getOrPut 3 30 .zero .report, .clear]⟩]⟩
    ∃ ps m, Trail Cache.engine (fun op => op.quiet = true) s ps m ∧ m.control = .finished (.returned (.hit none)) ∧
      m.cache.counters = ⟨1, 2, 3, 1, 0, 1, 0, 1⟩ ∧
      m.cache.counters.insertNew = UInt64.ofNat m.cache.entries.length + m.cache.counters.evicted +
        m.cache.counters.expired + m.cache.counters.removed + UInt64.ofNat (clearedIn m.cache.journal) ∧
      m.cache.counters.getHits = UInt64.ofNat (ps.countP Piece.hits) ∧
      m.cache.counters.getMisses = UInt64.ofNat (ps.countP Piece.misses) ∧
      m.cache.counters.insertUpdates = UInt64.ofNat (ps.countP Piece.overwrites) := by
  intro s
  have hrs : ∀ r ∈ s.reactions, ∀ op ∈ r.ops, op.quiet = true := by decide
  have hm : ∃ ps m, Trail Cache.engine (fun op => op.quiet = true) s ps m ∧
      m.control = .finished (.returned (.hit none)) ∧ m.cache.counters = ⟨1, 2, 3, 1, 0, 1, 0, 1⟩ ∧
      ∀ p ∈ ps, p.abort? = none := by
    refine ⟨_, _, .step (.step (.step (.step (.step (.step (.step (.step (.step (.step (.step
      (.start (.get 1) (.start (.advance ⟨2⟩) (.start (.put 1 10 (some ⟨1⟩) .abort) .idle rfl rfl) rfl rfl)
        rfl rfl))))))))))), ?_⟩
    decide +kernel
  obtain ⟨ps, m, hm, hc, hcounters, ha⟩ := hm
  obtain ⟨hentries, hreads, -⟩ := hm.counters_account hrs
  obtain ⟨h1, h2, h3⟩ := hreads _ hc ha
  exact ⟨ps, m, hm, hc, hcounters, hentries, h1, h2, h3⟩

end Machine

end Recency

import Mathlib.Data.Finset.Card
import Recency.Proofs.Session.Effects
/-
  Recency.Proofs.Session.Reaping — no reader can tell when expired entries are dropped.

  A reader sees the clock and the entries that have not expired, in their order (`Sight`).
  As long as no entry has to make room for another, what an operation makes of the sight
  and what it answers can be told from the sight alone (`perform_sight`), and a purge does
  nothing to it. So two runs that differ by purges show the same.

  An entry that has expired is in nobody's sight, but it takes up room. The number of keys
  that are ever stored is bounded for that reason: otherwise a run that does not purge may
  have to drop a good entry where one that does need not. And the clock may not go back,
  for it would make good again what only one of the runs has kept.
-/

namespace Recency

variable {κ ν : Type}

/-! ## Reading -/

/-- Answers with what is there and has not expired. -/
def Op.reads : Op κ ν → Bool
  | .get _ | .peek _ | .has _ | .getOrPut .. | .keys | .values | .visit _ => true
  | _ => false

/-- What the reads among the operations of a run were told. -/
def readings (ops : List (Op κ ν)) (outcomes : List (Outcome κ ν)) : List (Op κ ν × Outcome κ ν) :=
  (ops.zip outcomes).filter (·.1.reads)

/-- The second list is the first with purges put in. -/
inductive Purged : List (Op κ ν) → List (Op κ ν) → Prop
  | nil : Purged [] []
  | cons (op : Op κ ν) {ops ops' : List (Op κ ν)} (h : Purged ops ops') : Purged (op :: ops) (op :: ops')
  | purge {ops ops' : List (Op κ ν)} (h : Purged ops ops') : Purged ops (.purge :: ops')

/-- The clock, started at `c`, does not go back. -/
def neverBack : List (Op κ ν) → Clock → Bool
  | [], _ => true
  | op :: ops, c => c.now.nanos ≤ (op.moves c).now.nanos && neverBack ops (op.moves c)

namespace Purged

variable {ops ops' : List (Op κ ν)}

theorem mem (h : Purged ops ops') {op : Op κ ν} (hop : op ∈ ops') : op ∈ ops ∨ op = .purge := by
  induction h with
  | nil => exact .inl hop
  | cons op' _ ih =>
    rcases List.mem_cons.mp hop with rfl | hop
    · exact .inl List.mem_cons_self
    · exact (ih hop).imp_left (List.mem_cons_of_mem op')
  | purge _ ih =>
    rcases List.mem_cons.mp hop with rfl | hop
    · exact .inr rfl
    · exact ih hop

theorem inserts (h : Purged ops ops') : ops'.filterMap Op.inserts? = ops.filterMap Op.inserts? := by
  induction h with
  | nil => rfl
  | cons op _ ih => rw [List.filterMap_cons, List.filterMap_cons, ih]
  | purge _ ih => exact ih

theorem neverBack (h : Purged ops ops') (c : Clock) : Recency.neverBack ops' c = Recency.neverBack ops c := by
  induction h generalizing c with
  | nil => rfl
  | cons op _ ih => simp only [Recency.neverBack, ih]
  | purge _ ih =>
    simp only [Recency.neverBack, Op.moves, Nat.le_refl, decide_true, Bool.true_and]
    exact ih c

end Purged

/-! ## What a reader sees -/

/-- The entry without the number of its stay. -/
def Entry.unnumbered (e : Entry κ ν) : Entry κ ν := { e with stay := 0 }

structure Sight (κ ν : Type) where
  clock : Clock
  defaultTtl : Duration
  /-- The entries that have not expired, unnumbered. -/
  items : List (Entry κ ν)

def Plain.sight (p : Plain κ ν) : Sight κ ν := ⟨p.clock, p.defaultTtl, p.fresh.map Entry.unnumbered⟩

variable [DecidableEq κ]

namespace Sight

def find? (k : κ) (s : Sight κ ν) : Option (Entry κ ν) := s.items.find? (·.key = k)

def others (k : κ) (s : Sight κ ν) : List (Entry κ ν) := s.items.filter (·.key ≠ k)

/-- What is seen after `op`, when nothing has to make room. -/
def after (op : Op κ ν) (s : Sight κ ν) : Sight κ ν :=
  match op with
  | .put k value ttl _ => { s with items := ⟨0, k, value, s.clock.deadline (ttl.getD s.defaultTtl)⟩ :: s.others k }
  | .getOrPut k value ttl _ =>
    { s with items := (s.find? k).getD ⟨0, k, value, s.clock.deadline ttl⟩ :: s.others k }
  | .get k => { s with items := (s.find? k).toList ++ s.others k }
  | .delete k => { s with items := s.others k }
  | .clear => { s with items := [] }
  | .advance step =>
    let clock := s.clock.advance step
    { s with clock, items := s.items.filter fun e => !e.expired clock.now }
  | _ => s

def answer? (op : Op κ ν) (s : Sight κ ν) : Option (Reply κ ν) :=
  match op with
  | .get k | .peek k => some (.hit ((s.find? k).map (·.value)))
  | .has k => some (.flag (s.find? k).isSome)
  | .getOrPut k value _ _ => some (match s.find? k with | some e => .got e.value true | none => .got value false)
  | .keys => some (.keys (s.items.map (·.key)))
  | .values => some (.values (s.items.map (·.value)))
  | .visit stopAfter =>
    let kvs := s.items.map fun e => (e.key, e.value)
    some (.visited (if stopAfter = 0 then kvs else kvs.take stopAfter))
  | _ => none

/-- What the reads among `ops` are told. -/
def readings : List (Op κ ν) → Sight κ ν → List (Op κ ν × Outcome κ ν)
  | [], _ => []
  | op :: ops, s => ((s.answer? op).map fun reply => (op, .returned reply)).toList ++ readings ops (s.after op)

theorem answer?_isSome (op : Op κ ν) (s : Sight κ ν) : (s.answer? op).isSome = op.reads := by
  cases op <;> rfl

theorem readings_purged {ops ops' : List (Op κ ν)} (h : Purged ops ops') (s : Sight κ ν) :
    s.readings ops' = s.readings ops := by
  induction h generalizing s with
  | nil => rfl
  | cons op _ ih => rw [readings, readings, ih]
  | purge _ ih => exact ih s

end Sight

namespace Plain

variable {p q : Plain κ ν} {op : Op κ ν} {k : κ} {e : Entry κ ν}

theorem find?_fresh (hn : (p.entries.map (·.key)).Nodup) (k : κ) : p.fresh.find? (·.key = k) = p.good? k := by
  have hsub : (p.fresh.map (·.key)).Nodup := hn.sublist (List.filter_sublist.map _)
  refine Option.ext fun e => ?_
  rw [find?_key_eq_some hsub, good?_eq_some, find?, find?_key_eq_some hn, fresh, List.mem_filter]
  simp only [Bool.not_eq_true']
  constructor
  · rintro ⟨⟨hm, hx⟩, hk⟩
    exact ⟨⟨hm, hk⟩, hx⟩
  · rintro ⟨⟨hm, hk⟩, hx⟩
    exact ⟨⟨hm, hx⟩, hk⟩

theorem sight_find? (hn : (p.entries.map (·.key)).Nodup) (k : κ) :
    p.sight.find? k = (p.good? k).map Entry.unnumbered := by
  rw [← find?_fresh hn, Sight.find?, sight, List.find?_map]
  rfl

/-- The entries in sight of those of `l`. -/
def inSight (p : Plain κ ν) (l : List (Entry κ ν)) : List (Entry κ ν) :=
  (l.filter fun e => !e.expired p.now).map Entry.unnumbered

omit [DecidableEq κ] in
theorem inSight_cons (h : e.expired p.now = false) (l : List (Entry κ ν)) :
    p.inSight (e :: l) = e.unnumbered :: p.inSight l := by
  rw [inSight, List.filter_cons_of_pos (by simp [h])]
  rfl

theorem inSight_others (k : κ) (p : Plain κ ν) : p.inSight (p.others k) = p.sight.others k := by
  rw [inSight, others, Sight.others, sight, fresh, List.filter_map, List.filter_filter, List.filter_filter]
  congr 1
  exact List.filter_congr fun x _ => Bool.and_comm _ _

omit [DecidableEq κ] in
/-- What is in sight afterwards, when the clock has not been moved. -/
theorem sight_eq (hf : Frames true op p q) (hmoves : op.moves p.clock = p.clock) :
    q.sight = { p.sight with items := p.inSight q.entries } := by
  have hclock : q.clock = p.clock := (hf.clock rfl).trans hmoves
  rw [sight, fresh, now, hclock, hf.defaultTtl]
  rfl

/-- What a store that was granted leaves in sight, if no entry had to make room. -/
theorem Puts.sight (hn : (p.entries.map (·.key)).Nodup) {o : Outcome κ ν} (h : Puts p q op o e)
    (hentries : q.entries = e :: p.others e.key) (hf : Frames true op p q) :
    q.sight = p.sight.after op ∧ ∀ reply, p.sight.answer? op = some reply → o = .returned reply := by
  have hitems : op.moves p.clock = p.clock → e.expired p.now = false →
      q.sight = { p.sight with items := e.unnumbered :: p.sight.others e.key } := by
    intro hmoves hx
    rw [sight_eq hf hmoves, hentries, inSight_cons hx, inSight_others]
  cases h with
  | put stay k value ttl refusal =>
    exact ⟨hitems rfl (deadline_fresh p.clock _ stay k value), fun _ h => nomatch h⟩
  | found h value ttl refusal =>
    obtain ⟨hfind, hx⟩ := good?_eq_some.mp h
    obtain ⟨-, rfl⟩ := find?_eq_some hfind
    have hsees := sight_find? hn e.key
    rw [h] at hsees
    refine ⟨?_, fun reply hr => ?_⟩
    · rw [hitems rfl hx, Sight.after, hsees]
      rfl
    · rw [Sight.answer?, hsees] at hr
      cases hr
      rfl
  | added h stay value ttl refusal =>
    rename_i k
    have hclock : q.clock = p.clock := hf.clock rfl
    rw [hclock] at hitems
    have hsees := sight_find? hn k
    rw [h] at hsees
    refine ⟨?_, fun reply hr => ?_⟩
    · rw [hitems rfl (deadline_fresh p.clock _ stay k value), Sight.after, hsees]
      rfl
    · rw [Sight.answer?, hsees] at hr
      cases hr
      rfl

theorem inSight_good (hn : (p.entries.map (·.key)).Nodup) (k : κ) :
    p.inSight ((p.good? k).toList ++ p.others k) = (p.sight.find? k).toList ++ p.sight.others k := by
  rw [sight_find? hn, ← inSight_others]
  cases hg : p.good? k with
  | none => rfl
  | some e => exact inSight_cons (good?_eq_some.mp hg).2 _

/-- A key that is not in sight may be dropped. -/
theorem inSight_bad (hn : (p.entries.map (·.key)).Nodup) (hbad : p.good? k = none) :
    p.inSight (p.others k) = p.sight.items := by
  have hnone : p.sight.find? k = none := by rw [sight_find? hn, hbad, Option.map_none]
  rw [inSight_others]
  refine List.filter_eq_self.mpr fun x hx => ?_
  simpa using List.find?_eq_none.mp hnone x hx

omit [DecidableEq κ] in
theorem inSight_fresh (p : Plain κ ν) : p.inSight p.fresh = p.sight.items := by
  rw [inSight, fresh, List.filter_filter]
  simp only [Bool.and_self]
  rfl

omit [DecidableEq κ] in
/-- What has expired stays out of sight while the clock goes on. -/
theorem sight_advance (hclock : p.clock.now.nanos ≤ q.clock.now.nanos) (hentries : q.entries = p.entries)
    (httl : q.defaultTtl = p.defaultTtl) :
    q.sight = ⟨q.clock, p.sight.defaultTtl, p.sight.items.filter fun e => !e.expired q.clock.now⟩ := by
  have hfresh : q.fresh = p.fresh.filter fun e => !e.expired q.clock.now := by
    rw [fresh, fresh, hentries, List.filter_filter]
    refine List.filter_congr fun e _ => Bool.eq_iff_iff.mpr ?_
    show (!e.expired q.clock.now) = true ↔ _
    simp only [Bool.and_eq_true, Bool.not_eq_true', iff_self_and]
    intro hx
    unfold Entry.expired at hx ⊢
    cases hd : e.deadline with
    | none => rfl
    | some d =>
      simp only [hd, decide_eq_false_iff_not] at hx ⊢
      show ¬d.nanos < p.clock.now.nanos
      omega
  rw [sight, hfresh, httl, sight, List.filter_map]
  rfl

/-- What is shown can be told from what is in sight. -/
theorem answer?_sight (hn : (p.entries.map (·.key)).Nodup) (hstore : op.inserts? = none) :
    p.sight.answer? op = p.shows? op := by
  cases op with
  | put => cases hstore
  | getOrPut => cases hstore
  | get k =>
    rw [Sight.answer?, sight_find? hn, Option.map_map]
    rfl
  | peek k =>
    rw [Sight.answer?, sight_find? hn, Option.map_map]
    rfl
  | has k =>
    rw [Sight.answer?, sight_find? hn, Option.isSome_map]
    rfl
  | keys =>
    rw [Sight.answer?, sight, List.map_map]
    rfl
  | values =>
    rw [Sight.answer?, sight, List.map_map]
    rfl
  | visit stopAfter =>
    simp only [Sight.answer?, sight, List.map_map]
    rfl
  | _ => rfl

/-- What any other operation leaves in sight. -/
theorem Leaves.sight (hn : (p.entries.map (·.key)).Nodup) {o : Outcome κ ν} (h : Leaves true op p o q)
    (hstore : op.inserts? = none) (hclock : p.clock.now.nanos ≤ (op.moves p.clock).now.nanos) :
    q.sight = p.sight.after op ∧ ∀ reply, p.sight.answer? op = some reply → o = .returned reply := by
  refine ⟨?_, fun reply hr => h.shows reply (answer?_sight hn hstore ▸ hr)⟩
  have hitems : op.moves p.clock = p.clock → q.sight = { p.sight with items := p.inSight (p.remains op) } :=
    fun hmoves => h.entries ▸ sight_eq h.frames hmoves
  cases op with
  | put => cases hstore
  | getOrPut => cases hstore
  | get k => rw [hitems rfl, remains, inSight_good hn, Sight.after]
  | peek k =>
    rw [hitems rfl, remains]
    cases hg : p.good? k with
    | none =>
      rw [Option.isSome_none, if_neg Bool.false_ne_true, inSight_bad hn hg]
      rfl
    | some e => rfl
  | delete k => rw [hitems rfl, remains, inSight_others, Sight.after]
  | purge =>
    rw [hitems rfl, remains, inSight_fresh]
    rfl
  | advance step =>
    have hmoved : q.clock = p.clock.advance step := h.frames.clock rfl
    rw [sight_advance (hmoved ▸ hclock) h.entries h.frames.defaultTtl, hmoved]
    rfl
  | _ => exact hitems rfl

end Plain

/-! ## Runs -/

namespace Session

variable {s : Session (Cache κ ν) κ ν} {op : Op κ ν} {K : Finset κ}

/-- No key is there that is not among `K`, and `K` is within the bound. -/
structure Keyed (K : Finset κ) (p : Plain κ ν) : Prop where
  keys : ∀ e ∈ p.entries, e.key ∈ K
  card_le : K.card ≤ p.bound.toNat

theorem Keyed.others_eq {p : Plain κ ν} (h : Keyed K p) (hn : (p.entries.map (·.key)).Nodup) {k : κ} (hk : k ∈ K) :
    p.spared k = p.others k := by
  have hsub : (k :: (p.others k).map (·.key)).toFinset ⊆ K := by
    intro x hx
    rcases List.mem_cons.mp (List.mem_toFinset.mp hx) with rfl | hx
    · exact hk
    · obtain ⟨e, he, rfl⟩ := List.mem_map.mp hx
      exact h.keys e (List.mem_of_mem_filter he)
  have hnodup : (k :: (p.others k).map (·.key)).Nodup := by
    refine List.nodup_cons.mpr ⟨fun hm => ?_, hn.sublist (List.filter_sublist.map _)⟩
    obtain ⟨e, he, hk⟩ := List.mem_map.mp hm
    simpa [hk] using (List.mem_filter.mp he).2
  have hcard := Finset.card_le_card hsub
  have hle := h.card_le
  rw [List.toFinset_card_of_nodup hnodup, List.length_cons, List.length_map] at hcard
  exact List.take_of_length_le (by omega)

theorem perform_sight (hs : s.Settled true) (hK : Keyed K s.cache.view) (hop : op.quiet = true)
    (hsize : op.resizes = false) (hkey : ∀ k, op.inserts? = some k → k ∈ K)
    (hclock : s.cache.clock.now.nanos ≤ (op.moves s.cache.clock).now.nanos)
    (hgranted : (s.perform Cache.engine op).1.refusal? = none) :
    let s' := (s.perform Cache.engine op).2
    s'.Settled true ∧ Keyed K s'.cache.view ∧ s'.cache.clock = op.moves s.cache.clock ∧
      s'.cache.view.sight = s.cache.view.sight.after op ∧
      ∀ reply, s.cache.view.sight.answer? op = some reply → (s.perform Cache.engine op).1 = .returned reply := by
  intro s'
  have hn := hs.fits.nodup
  cases hstore : op.inserts? with
  | some k =>
    obtain ⟨hs', e, hputs, hentries, hf⟩ := perform_stores hs hstore hgranted
    have hin : e.key ∈ K := hkey _ (hstore ▸ hputs.inserts)
    rw [hK.others_eq hn hin] at hentries
    obtain ⟨hsight, hanswer⟩ := hputs.sight hn hentries hf
    refine ⟨hs', ⟨fun x hx => ?_, hf.bound ▸ hK.card_le⟩, hf.clock rfl, hsight, hanswer⟩
    rw [hentries] at hx
    rcases List.mem_cons.mp hx with rfl | hx
    · exact hin
    · exact hK.keys x (List.mem_of_mem_filter hx)
  | none =>
    obtain ⟨hs', hl⟩ := perform_leaves hs op hop hstore hsize
    obtain ⟨hsight, hanswer⟩ := hl.sight hn hstore hclock
    refine ⟨hs', ⟨fun x hx => hK.keys x ?_, hl.frames.bound ▸ hK.card_le⟩, hl.frames.clock rfl, hsight, hanswer⟩
    rw [hl.entries] at hx
    exact Plain.remains_subset op hx

theorem performAll_readings {ops : List (Op κ ν)} (hs : s.Settled true) (hK : Keyed K s.cache.view)
    (hops : ∀ op ∈ ops, op.quiet = true ∧ op.resizes = false) (hkeys : ∀ k ∈ ops.filterMap Op.inserts?, k ∈ K)
    (hclock : neverBack ops s.cache.clock = true)
    (hgranted : ∀ o ∈ (performAll Cache.engine ops s).1, o.refusal? = none) :
    readings ops (performAll Cache.engine ops s).1 = s.cache.view.sight.readings ops := by
  induction ops generalizing s with
  | nil => rfl
  | cons op ops ih =>
    obtain ⟨hop, hsize⟩ := hops op List.mem_cons_self
    simp only [neverBack, Bool.and_eq_true, decide_eq_true_eq] at hclock
    obtain ⟨hs', hK', hmoved, hsight, hanswer⟩ := perform_sight hs hK hop hsize
      (fun k hk => hkeys k (List.mem_filterMap.mpr ⟨op, List.mem_cons_self, hk⟩)) hclock.1
      (hgranted _ List.mem_cons_self)
    have hrest := ih hs' hK' (fun op hop => hops op (List.mem_cons_of_mem _ hop))
      (fun k hk => ?_) (hmoved ▸ hclock.2) (fun o ho => hgranted o (List.mem_cons_of_mem _ ho))
    · rw [Sight.readings, ← hsight, ← hrest, performAll, readings, List.zip_cons_cons, List.filter_cons]
      have hreads := s.cache.view.sight.answer?_isSome op
      cases ha : s.cache.view.sight.answer? op with
      | none =>
        rw [ha] at hreads
        rw [← hreads]
        rfl
      | some reply =>
        rw [ha] at hreads
        rw [← hreads, hanswer reply ha]
        rfl
    · obtain ⟨op', hop', hk⟩ := List.mem_filterMap.mp hk
      exact hkeys k (List.mem_filterMap.mpr ⟨op', List.mem_cons_of_mem _ hop', hk⟩)

theorem build_keyed (cfg : Settings) {K : Finset κ} (hK : K.card ≤ (Cache.effectiveBound cfg.bound).toNat) :
    Keyed K (cfg.build : Cache κ ν).view := by
  rw [(Cache.build_steady cfg).2]
  exact ⟨fun e he => absurd he List.not_mem_nil, hK⟩

/-- Two runs of caches built alike, of which the second purges more often: every `get`, `peek`,
    `has`, `keys`, `values`, `visit` and `getOrPut` of the first is answered as its counterpart
    in the second is. For that, no more different keys may be stored than there is room for,
    the clock may not go back, and no store may be refused for want of memory. -/
theorem purges_unseen (cfg : Settings) (rs rs' : List (Reaction κ ν)) {ops ops' : List (Op κ ν)}
    (hpurged : Purged ops ops') (hrs : ∀ r ∈ rs, ∀ op ∈ r.ops, op.aside true = true)
    (hrs' : ∀ r ∈ rs', ∀ op ∈ r.ops, op.aside true = true)
    (hops : ∀ op ∈ ops, op.quiet = true ∧ op.resizes = false)
    (hkeys : (ops.filterMap Op.inserts?).toFinset.card ≤ (Cache.effectiveBound cfg.bound).toNat)
    (hclock : neverBack ops .origin = true)
    (hgranted : ∀ o ∈ (performAll Cache.engine ops ⟨cfg.build, rs⟩).1, o.refusal? = none)
    (hgranted' : ∀ o ∈ (performAll Cache.engine ops' ⟨cfg.build, rs'⟩).1, o.refusal? = none) :
    readings ops (performAll Cache.engine ops ⟨cfg.build, rs⟩).1 =
      readings ops' (performAll Cache.engine ops' ⟨cfg.build, rs'⟩).1 := by
  have hops' : ∀ op ∈ ops', op.quiet = true ∧ op.resizes = false := by
    intro op hop
    rcases hpurged.mem hop with hop | rfl
    · exact hops op hop
    · exact ⟨rfl, rfl⟩
  have hfirst := performAll_readings (build_settled cfg hrs) (build_keyed cfg hkeys) hops
    (fun k hk => List.mem_toFinset.mpr hk) hclock hgranted
  have hsecond := performAll_readings (build_settled cfg hrs') (build_keyed cfg hkeys) hops'
    (fun k hk => List.mem_toFinset.mpr (hpurged.inserts ▸ hk)) ((hpurged.neverBack .origin).trans hclock) hgranted'
  calc readings ops (performAll Cache.engine ops ⟨cfg.build, rs⟩).1
      = (cfg.build : Cache κ ν).view.sight.readings ops := hfirst
    _ = (cfg.build : Cache κ ν).view.sight.readings ops' := (Sight.readings_purged hpurged _).symm
    _ = readings ops' (performAll Cache.engine ops' ⟨cfg.build, rs'⟩).1 := hsecond.symm

/-- The key 1 expires. The first run still holds it when it is stored again; the second has
    purged it, and the callback has looked at the clock. -/
theorem purges_unseen_expired :
    let cfg : Settings := ⟨2, .zero, true, none, false, 0⟩
    let rs : List (Reaction Nat Nat) := [⟨none, 1, [.elapsed]⟩]
    let before : List (Op Nat Nat) := [.put 1 10 (some ⟨5⟩) .abort, .put 2 20 none .abort, .advance ⟨6⟩, .keys]
    let later : List (Op Nat Nat) := [.getOrPut 1 11 .zero .abort, .get 2, .values]
    let shown := readings (before ++ later) (performAll Cache.engine (before ++ later) ⟨cfg.build, rs⟩).1
    let purged := before ++ .purge :: later ++ [.purge]
    shown.map (·.2) = [.returned (.keys [2]), .returned (.got 11 false), .returned (.hit (some 20)),
        .returned (.values [20, 11])] ∧
      shown = readings purged (performAll Cache.engine purged ⟨cfg.build, rs⟩).1 := by
  intro cfg rs before later shown purged
  have hpurged : Purged (before ++ later) purged :=
    .cons _ (.cons _ (.cons _ (.cons _ (.purge (.cons _ (.cons _ (.cons _ (.purge .nil))))))))
  have hrs : ∀ r ∈ rs, ∀ op ∈ r.ops, op.aside true = true := by decide
  refine ⟨by decide +kernel, ?_⟩
  exact purges_unseen cfg rs rs hpurged hrs hrs (by decide) (by decide) (by decide) (by decide +kernel)
    (by decide +kernel)

end Session

end Recency

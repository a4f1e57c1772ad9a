import Recency.Proofs.Session.Alone
/-
  Recency.Proofs.Plain.Turns — what an operation as a whole does to the list.

  From its beginning to its end an operation, the callbacks of which stand aside, does no
  more than this: some entries leave, and then at most one is put in front, which the
  operation has stored or has found among those that stayed. `Turn` says so of an operation
  that is over, `Midway` of one that waits for a callback.

  Operations are remembered as deeds: what was asked, when, what came of it, and what left
  meanwhile. What a deed stored, touched or removed is read off these, not off the cache.
-/

namespace Recency

variable {κ ν : Type}

/-! ## Deeds -/

/-- An operation that is over. -/
structure Deed (κ ν : Type) where
  op : Op κ ν
  /-- The reading of the clock when it began. -/
  time : Instant
  outcome : Outcome κ ν
  /-- The entries that left meanwhile, latest first, and why. -/
  gone : List (Entry κ ν × Cause)

/-- A value given to a key. -/
structure Store (κ ν : Type) where
  key : κ
  value : ν
  time : Instant
  ttl : Duration

def Store.deadline (s : Store κ ν) : Option Instant := if s.ttl = .zero then none else s.time.add? s.ttl

namespace Deed

/-- The store that was made, if it was made: without a time to live of its own it has the
    cache's. -/
def store? (default : Duration) : Deed κ ν → Option (Store κ ν)
  | ⟨.put key value ttl _, time, .returned .unit, _⟩ => some ⟨key, value, time, ttl.getD default⟩
  | ⟨.put key value ttl _, time, .returned .ok, _⟩ => some ⟨key, value, time, ttl.getD default⟩
  | ⟨.getOrPut key value ttl _, time, .returned (.got _ false), _⟩ => some ⟨key, value, time, ttl⟩
  | _ => none

/-- The key that was inserted, overwritten or hit. -/
def touched? : Deed κ ν → Option κ
  | ⟨.put key _ _ _, _, .returned .unit, _⟩ => some key
  | ⟨.put key _ _ _, _, .returned .ok, _⟩ => some key
  | ⟨.getOrPut key _ _ _, _, .returned (.got _ _), _⟩ => some key
  | ⟨.get key, _, .returned (.hit (some _)), _⟩ => some key
  | _ => none

theorem touched_of_store {d : Deed κ ν} {default : Duration} {st : Store κ ν} (h : d.store? default = some st) :
    d.touched? = some st.key := by
  unfold store? at h
  split at h <;> cases h <;> rfl

end Deed

variable [DecidableEq κ]

/-- Is meant to end the stay of `k`. -/
def Op.removes (k : κ) : Op κ ν → Bool
  | .delete k' => k' = k
  | .clear => true
  | _ => false

/-- Was meant to end the stay of `k`, and did if there was one. -/
def Deed.removes (k : κ) : Deed κ ν → Bool
  | ⟨.delete k', _, .returned (.flag true), _⟩ => k' = k
  | ⟨.clear, _, _, _⟩ => true
  | _ => false

theorem Deed.op_removes {d : Deed κ ν} {k : κ} (h : d.removes k = true) : d.op.removes k = true := by
  unfold Deed.removes at h
  split at h
  · exact h
  · rfl
  · cases h

/-! ## Leaving -/

/-- Of `l`, the entries `gone` have left and `rest` have stayed. -/
structure Shed (gone : List (Entry κ ν × Cause)) (l rest : List (Entry κ ν)) : Prop where
  rest_eq : rest = l.filter fun x => x.key ∉ gone.map (·.1.key)
  /-- What had to make room was behind all that have stayed. -/
  behind : ∀ g ∈ gone, g.2 = .capacity → ∀ x ∈ rest, [x, g.1].Sublist l

namespace Shed

variable {gone : List (Entry κ ν × Cause)} {l rest : List (Entry κ ν)}

theorem refl (l : List (Entry κ ν)) : Shed [] l l :=
  ⟨(List.filter_eq_self.mpr fun _ _ => by simp).symm, fun _ h => (nomatch h)⟩

theorem sublist (h : Shed gone l rest) : rest.Sublist l := h.rest_eq ▸ List.filter_sublist

theorem nodup (h : Shed gone l rest) (hn : (l.map (·.key)).Nodup) : (rest.map (·.key)).Nodup :=
  hn.sublist (h.sublist.map _)

theorem cons (h : Shed gone l rest) {e : Entry κ ν} {cause : Cause}
    (hlast : cause = .capacity → ∃ before, rest = before ++ [e]) :
    Shed ((e, cause) :: gone) l (rest.filter (·.key ≠ e.key)) := by
  refine ⟨?_, fun g hg hc x hx => ?_⟩
  · rw [h.rest_eq, List.filter_filter]
    refine List.filter_congr fun x _ => Bool.eq_iff_iff.mpr ?_
    simp only [Bool.and_eq_true, decide_eq_true_eq, List.map_cons, List.mem_cons, not_or]
  · have hx' := (List.mem_filter.mp hx).1
    rcases List.mem_cons.mp hg with rfl | hg
    · obtain ⟨before, hb⟩ := hlast hc
      have hmem : x ∈ before := by
        rw [hb, List.mem_append, List.mem_singleton] at hx'
        rcases hx' with hx' | rfl
        · exact hx'
        · simp at hx
      have hsub : [x, e].Sublist (before ++ [e]) := (List.singleton_sublist.mpr hmem).append_right [e]
      exact (hb ▸ hsub).trans h.sublist
    · exact h.behind g hg hc x hx'

end Shed

namespace Plain

variable {p q q' : Plain κ ν} {op : Op κ ν} {still : Bool} {gone : List (Entry κ ν × Cause)}

/-- Since `op` began at `p` the entries `gone` have left, and that is all. -/
structure Since (still : Bool) (op : Op κ ν) (p : Plain κ ν) (gone : List (Entry κ ν × Cause)) (q : Plain κ ν) :
    Prop where
  left : leftIn q.journal = gone ++ leftIn p.journal
  shed : Shed gone p.entries q.entries
  cause : ∀ g ∈ gone, g.2 = .capacity ∨ g.2 = .expired ∨ op.removes g.1.key = true
  clock : still = true → q.clock = p.clock
  defaultTtl : q.defaultTtl = p.defaultTtl

namespace Since

theorem refl (op : Op κ ν) (p : Plain κ ν) : Since still op p [] p :=
  ⟨rfl, .refl _, fun _ h => (nomatch h), fun _ => rfl, rfl⟩

theorem beside (h : Since still op p gone q) (hb : q.Beside still q') : Since still op p gone q' where
  left := hb.left.trans h.left
  shed := hb.entries ▸ h.shed
  cause := h.cause
  clock hs := (hb.clock hs).trans (h.clock hs)
  defaultTtl := hb.defaultTtl.trans h.defaultTtl

theorem count (h : Since still op p gone q) (m : Metric) : Since still op p gone (q.count m) :=
  h.beside ⟨rfl, rfl, rfl, rfl, rfl, fun _ => rfl⟩

theorem note (h : Since still op p gone q) (n : Note) : Since still op p gone (q.note n) := h.beside (.record rfl q)

theorem nodup (h : Since still op p gone q) (hn : (p.entries.map (·.key)).Nodup) : (q.entries.map (·.key)).Nodup :=
  h.shed.nodup hn

theorem leave (h : Since still op p gone q) (e : Entry κ ν) {cause : Cause}
    (hc : cause = .expired ∨ cause ≠ .capacity ∧ op.removes e.key = true) :
    Since still op p ((e, cause) :: gone) (q.leave e cause) where
  left := congrArg ((e, cause) :: ·) h.left
  shed := h.shed.cons fun hcap => by rcases hc with rfl | hc <;> [cases hcap; exact absurd hcap hc.1]
  cause g hg := by
    rcases List.mem_cons.mp hg with rfl | hg
    · exact .inr (hc.imp id (·.2))
    · exact h.cause g hg
  clock := h.clock
  defaultTtl := h.defaultTtl

theorem evict (h : Since still op p gone q) (hn : (p.entries.map (·.key)).Nodup) {e : Entry κ ν}
    (he : q.evict? = some (e, q')) : Since still op p ((e, .capacity) :: gone) q' := by
  obtain ⟨e', hlast, heq⟩ := Option.map_eq_some_iff.mp he
  obtain ⟨rfl, rfl⟩ := Prod.mk.inj heq
  have hkeys := h.nodup hn
  have hs : Shed ((e', .capacity) :: gone) p.entries (q.entries.filter (·.key ≠ e'.key)) :=
    h.shed.cons fun _ => List.getLast?_eq_some_iff.mp hlast
  rw [filter_key_getLast hkeys hlast] at hs
  refine ⟨congrArg ((e', Cause.capacity) :: ·) h.left, hs, fun g hg => ?_, h.clock, h.defaultTtl⟩
  rcases List.mem_cons.mp hg with rfl | hg
  · exact .inl rfl
  · exact h.cause g hg

theorem reap (h : Since still op p gone q) (victims : List (Entry κ ν)) :
    ∃ gone, Since still op p gone (q.reap victims) := by
  induction victims generalizing q gone with
  | nil => exact ⟨gone, h⟩
  | cons e victims ih => exact ih ((h.leave e (.inl rfl)).count .expired)

end Since

theorem dropAll_since (p : Plain κ ν) : Since still .clear p (p.entries.map (·, .cleared)) p.dropAll where
  left := by
    simp [dropAll, leftIn, List.filterMap_map, Function.comp_def, Event.left?, List.filterMap_eq_map']
  shed := by
    refine ⟨(List.filter_eq_nil_iff.mpr fun x hx => ?_).symm, fun _ _ _ x hx => absurd hx List.not_mem_nil⟩
    simpa using ⟨x, hx, rfl⟩
  cause _ _ := .inr (.inr rfl)
  clock _ := rfl
  defaultTtl := rfl

/-! ## Turns -/

/-- `e` in front of those of other keys. -/
def fronted : Option (Entry κ ν) → List (Entry κ ν) → List (Entry κ ν)
  | none, rest => rest
  | some e, rest => e :: rest.filter (·.key ≠ e.key)

/-- The deed `d` made `q` of `p`: what was not `gone` did `rest`, and `front` was put in front. -/
structure Turn (still : Bool) (p : Plain κ ν) (d : Deed κ ν) (front : Option (Entry κ ν)) (rest : List (Entry κ ν))
    (q : Plain κ ν) : Prop where
  left : leftIn q.journal = d.gone ++ leftIn p.journal
  shed : Shed d.gone p.entries rest
  entries : q.entries = fronted front rest
  touched : d.touched? = front.map (·.key)
  stored : ∀ st, d.store? p.defaultTtl = some st →
    ∃ e, front = some e ∧ e.key = st.key ∧ e.value = st.value ∧ (still = true → e.deadline = st.deadline)
  found : d.store? p.defaultTtl = none → ∀ e, front = some e → e ∈ rest
  cause : ∀ g ∈ d.gone, g.2 = .capacity ∨ g.2 = .expired ∨ d.removes g.1.key = true
  rest_kept : ∀ x ∈ rest, d.removes x.key = false
  defaultTtl : q.defaultTtl = p.defaultTtl

/-- `op` has come to the outcome `o`, and made `q` of `p`. -/
def Turned (still : Bool) (op : Op κ ν) (p : Plain κ ν) (o : Outcome κ ν) (q : Plain κ ν) : Prop :=
  ∃ gone front rest, Turn still p ⟨op, p.now, o, gone⟩ front rest q

/-- The tasks that `op` waits in when it has begun at `p`. -/
inductive Awaits (p : Plain κ ν) : Op κ ν → Task κ ν → Prop
  | put (k : κ) (value : ν) (ttl : Option Duration) (refusal : OnRefusal) :
      Awaits p (.put k value ttl refusal) (.put k value (p.clock.deadline (ttl.getD p.defaultTtl)) refusal)
  | getOrPut (k : κ) (value : ν) (ttl : Duration) (refusal : OnRefusal) :
      Awaits p (.getOrPut k value ttl refusal) (.getOrPut k value ttl refusal)
  | get (k : κ) : Awaits p (.get k) (.notify [] none (.hit none))
  | peek (k : κ) : Awaits p (.peek k) (.notify [] none (.hit none))
  | delete (k : κ) : Awaits p (.delete k) (.notify [] none (.flag true))
  | resize (asked bound : UInt64) (dropped : Nat) : Awaits p (.resize asked) (.shrink bound dropped)
  | purge (victims : List (Entry κ ν)) (ending : Option Note) (n : Nat) :
      Awaits p .purge (.notify victims ending (.count n))
  | clear (victims : List (Entry κ ν)) (ending : Option Note) : Awaits p .clear (.notify victims ending .unit)

/-- `op`, begun at `p`, waits in `task` for a callback, and `q` is what the callback finds. -/
structure Midway (still : Bool) (op : Op κ ν) (p : Plain κ ν) (task : Task κ ν) (q : Plain κ ν) : Prop where
  awaits : Awaits p op task
  since : ∃ gone, Since still op p gone q
  rest_kept : ∀ x ∈ q.entries, op.removes x.key = false

/-! ## How an operation ends -/

/-- Nothing comes to the front. -/
theorem Since.rests (h : Since still op p gone q) {o : Outcome κ ν}
    (ht : Deed.touched? ⟨op, p.now, o, gone⟩ = none)
    (hr : ∀ g ∈ gone, op.removes g.1.key = true → Deed.removes g.1.key ⟨op, p.now, o, gone⟩ = true)
    (hk : ∀ x ∈ q.entries, Deed.removes x.key ⟨op, p.now, o, gone⟩ = false) : Turned still op p o q := by
  refine ⟨gone, none, q.entries, h.left, h.shed, rfl, ht, fun st hst => ?_, fun _ _ he => (nomatch he), fun g hg => ?_,
    hk, h.defaultTtl⟩
  · rw [Deed.touched_of_store hst] at ht
    cases ht
  · exact (h.cause g hg).imp id (Or.imp id (hr g hg))

/-- What is not meant to end a stay does not remove. -/
theorem not_removes (hop : ∀ k, op.removes k = false) (o : Outcome κ ν) (gone : List (Entry κ ν × Cause)) (k : κ) :
    Deed.removes k ⟨op, p.now, o, gone⟩ = false :=
  Bool.eq_false_iff.mpr fun h => Bool.eq_false_iff.mp (hop k) (Deed.op_removes h)

theorem Since.rests_of_keeps (h : Since still op p gone q) (hop : ∀ k, op.removes k = false) {o : Outcome κ ν}
    (ht : Deed.touched? ⟨op, p.now, o, gone⟩ = none) : Turned still op p o q :=
  h.rests ht (fun g _ hg => absurd hg (Bool.eq_false_iff.mp (hop g.1.key))) fun x _ => not_removes hop o gone x.key

/-- `e` comes to the front. -/
theorem Since.fronts (h : Since still op p gone q) (hop : ∀ k, op.removes k = false) {o : Outcome κ ν} {e : Entry κ ν}
    (ht : Deed.touched? ⟨op, p.now, o, gone⟩ = some e.key)
    (hs : ∀ st, Deed.store? p.defaultTtl ⟨op, p.now, o, gone⟩ = some st →
      e.value = st.value ∧ (still = true → e.deadline = st.deadline))
    (hf : Deed.store? p.defaultTtl ⟨op, p.now, o, gone⟩ = none → e ∈ q.entries)
    (he : q'.entries = e :: q.entries.filter (·.key ≠ e.key)) (hl : leftIn q'.journal = leftIn q.journal)
    (hd : q'.defaultTtl = q.defaultTtl) : Turned still op p o q' := by
  refine ⟨gone, some e, q.entries, hl.trans h.left, h.shed, he, ht, fun st hst => ⟨e, rfl, ?_, hs st hst⟩,
    fun hn e' he' => by cases he'; exact hf hn, fun g hg => ?_, fun x _ => not_removes hop o gone x.key,
    hd.trans h.defaultTtl⟩
  · have := Deed.touched_of_store hst
    rw [ht] at this
    exact Option.some.inj this
  · exact (h.cause g hg).imp id (Or.imp id fun hr => absurd hr (Bool.eq_false_iff.mp (hop g.1.key)))

omit [DecidableEq κ] in
theorem Beside.refl (p : Plain κ ν) : p.Beside still p := ⟨rfl, rfl, rfl, rfl, rfl, fun _ => rfl⟩

theorem Turned.beside {o : Outcome κ ν} (h : Turned still op p o q) (hb : q.Beside false q') :
    Turned still op p o q' := by
  obtain ⟨gone, front, rest, h⟩ := h
  exact ⟨gone, front, rest, { h with
    left := hb.left.trans h.left
    entries := hb.entries.trans h.entries
    defaultTtl := hb.defaultTtl.trans h.defaultTtl }⟩

theorem Since.midway (h : Since still op p gone q) {task : Task κ ν} (ha : Awaits p op task)
    (hk : ∀ x ∈ q.entries, op.removes x.key = false) : Midway still op p task q := ⟨ha, ⟨gone, h⟩, hk⟩

/-! ## Tasks -/

/-- What is shown of every piece of an operation begun at `p`. -/
def Proceeds (still : Bool) (op : Op κ ν) (p : Plain κ ν) (r : Result κ ν) : Prop :=
  Engine.Leads (Midway still op p) (Turned still op p) r

theorem find?_eq_some {k : κ} {e : Entry κ ν} (h : q.find? k = some e) : e ∈ q.entries ∧ e.key = k :=
  ⟨List.mem_of_find?_eq_some h, by simpa using List.find?_some h⟩

theorem enter_eq {k : κ} (hk : q.find? k = none) {value : ν} {deadline : Option Instant}
    (h : q.enter k value deadline = .ok q') :
    q'.entries = ⟨q.stays, k, value, deadline⟩ :: q.entries.filter (·.key ≠ k) ∧
      leftIn q'.journal = leftIn q.journal ∧ q'.defaultTtl = q.defaultTtl := by
  have hall : q.entries.filter (·.key ≠ k) = q.entries :=
    List.filter_eq_self.mpr fun x hx => by simpa using List.find?_eq_none.mp hk x hx
  unfold enter at h
  cases ht : q.room.take q.entries.length with
  | error e => rw [ht] at h; cases h
  | ok room =>
    rw [ht] at h
    cases h
    exact ⟨congrArg (_ :: ·) hall.symm, rfl, rfl⟩

theorem refuse_proceeds (h : Since still op p gone q) (hop : ∀ k, op.removes k = false) (refusal : OnRefusal)
    (e : ArenaError) (ha : Deed.touched? ⟨op, p.now, .aborted (.refused e), gone⟩ = none)
    (hr : Deed.touched? ⟨op, p.now, .returned (.refused e), gone⟩ = none) :
    Proceeds still op p (q.refuse refusal e) := by
  cases refusal with
  | abort => exact h.rests_of_keeps hop ha
  | report => exact h.rests_of_keeps hop hr

/-- A store that did not find its key ends where there is room, and else drops one entry. -/
theorem makeRoom_proceeds (h : Since still op p gone q) (hn : (p.entries.map (·.key)).Nodup)
    (hop : ∀ k, op.removes k = false) {finish : Plain κ ν → Result κ ν} (hf : Proceeds still op p (finish q))
    {task : Task κ ν} (ha : Awaits p op task) :
    Proceeds still op p (if q.hasRoom then finish q
      else match q.evict? with
        | none => finish q
        | some (victim, q) => .ok (.release (some victim) task) q) := by
  split
  · exact hf
  · cases he : q.evict? with
    | none => exact hf
    | some r => exact (h.evict hn he).midway ha fun x _ => hop x.key

theorem resumePut_proceeds {k : κ} {value : ν} {ttl : Option Duration} {refusal : OnRefusal}
    (h : Since still (.put k value ttl refusal) p gone q) (hn : (p.entries.map (·.key)).Nodup) :
    Proceeds still (.put k value ttl refusal) p
      (q.resumePut k value (p.clock.deadline (ttl.getD p.defaultTtl)) refusal) := by
  have hop : ∀ k', Op.removes k' (.put k value ttl refusal) = false := fun _ => rfl
  let d : Deed κ ν := ⟨.put k value ttl refusal, p.now, .returned (Cache.stored refusal), gone⟩
  have htouched : d.touched? = some k := by cases refusal <;> rfl
  have hstore : d.store? p.defaultTtl = some ⟨k, value, p.now, ttl.getD p.defaultTtl⟩ := by cases refusal <;> rfl
  have hstored : ∀ st, d.store? p.defaultTtl = some st →
      value = st.value ∧ (still = true → p.clock.deadline (ttl.getD p.defaultTtl) = st.deadline) := by
    intro st hst
    rw [hstore] at hst
    cases hst
    exact ⟨rfl, fun _ => rfl⟩
  have hfound : ∀ e : Entry κ ν, d.store? p.defaultTtl = none → e ∈ q.entries := fun e hn => by
    rw [hstore] at hn
    cases hn
  unfold resumePut
  cases hk : q.find? k with
  | some e =>
    obtain ⟨-, rfl⟩ := find?_eq_some hk
    exact h.fronts hop (e := { e with value, deadline := _ }) htouched hstored (hfound _) rfl rfl rfl
  | none =>
    refine makeRoom_proceeds h hn hop ?_ (.put k value ttl refusal)
    unfold finishPut
    cases he : q.enter k value (p.clock.deadline (ttl.getD p.defaultTtl)) with
    | error e => exact refuse_proceeds h hop refusal e rfl rfl
    | ok q' =>
      obtain ⟨hent, hl, hd⟩ := enter_eq hk he
      exact h.fronts hop (e := ⟨q.stays, k, value, _⟩) htouched hstored (hfound _) hent hl hd

theorem resumeGetOrPut_proceeds {k : κ} {value : ν} {ttl : Duration} {refusal : OnRefusal}
    (h : Since still (.getOrPut k value ttl refusal) p gone q) (hn : (p.entries.map (·.key)).Nodup) :
    Proceeds still (.getOrPut k value ttl refusal) p (q.resumeGetOrPut k value ttl refusal) := by
  have hop : ∀ k', Op.removes k' (.getOrPut k value ttl refusal) = false := fun _ => rfl
  unfold resumeGetOrPut
  cases hk : q.find? k with
  | some e =>
    obtain ⟨hm, rfl⟩ := find?_eq_some hk
    simp only
    split
    · exact ((h.leave e (.inl rfl)).count .expired).midway (.getOrPut ..) fun x _ => hop x.key
    · exact h.fronts hop rfl (fun _ hst => nomatch hst) (fun _ => hm) rfl rfl rfl
  | none =>
    refine makeRoom_proceeds h hn hop ?_ (.getOrPut k value ttl refusal)
    unfold finishGetOrPut
    cases he : (q.count .getMiss).enter k value (q.clock.deadline ttl) with
    | error e => exact refuse_proceeds (h.count .getMiss) hop refusal e rfl rfl
    | ok q' =>
      obtain ⟨hent, hl, hd⟩ := enter_eq (q := q.count .getMiss) hk he
      refine h.fronts hop (e := ⟨q.stays, k, value, _⟩) rfl (fun st hst => ?_) (fun hf => nomatch hf) hent hl hd
      cases hst
      exact ⟨rfl, fun hs => congrArg (Clock.deadline · ttl) (h.clock hs)⟩

theorem resumeShrink_proceeds {asked : UInt64} (h : Since still (.resize asked) p gone q)
    (hn : (p.entries.map (·.key)).Nodup) (bound : UInt64) (dropped : Nat) :
    Proceeds still (.resize asked) p (q.resumeShrink bound dropped) := by
  have hend : Turned still (.resize asked) p (.returned .unit) (q.note (.resized bound dropped)) :=
    (h.note _).rests_of_keeps (fun _ => rfl) rfl
  unfold resumeShrink
  split
  · cases he : q.evict? with
    | none => exact hend
    | some r => exact (h.evict hn he).midway (.resize ..) fun _ _ => rfl
  · exact hend

theorem resume_proceeds {task : Task κ ν} (h : Midway still op p task q) (hn : (p.entries.map (·.key)).Nodup) :
    Proceeds still op p (q.resume task) := by
  obtain ⟨ha, ⟨gone, hs⟩, hk⟩ := h
  cases ha with
  | put k value ttl refusal => exact resumePut_proceeds hs hn
  | getOrPut k value ttl refusal => exact resumeGetOrPut_proceeds hs hn
  | get k => exact hs.rests_of_keeps (fun _ => rfl) rfl
  | peek k => exact hs.rests_of_keeps (fun _ => rfl) rfl
  | delete k => exact hs.rests rfl (fun _ _ hr => hr) hk
  | resize asked bound dropped => exact resumeShrink_proceeds hs hn bound dropped
  | purge victims ending n =>
    cases victims with
    | cons victim victims => exact hs.midway (.purge ..) hk
    | nil =>
      cases ending with
      | none => exact hs.rests_of_keeps (fun _ => rfl) rfl
      | some note => exact (hs.note note).rests_of_keeps (fun _ => rfl) rfl
  | clear victims ending =>
    cases victims with
    | cons victim victims => exact hs.midway (.clear ..) hk
    | nil =>
      cases ending with
      | none => exact hs.rests rfl (fun _ _ hr => hr) hk
      | some note => exact (hs.note note).rests rfl (fun _ _ hr => hr) hk

/-! ## Operations -/

theorem read_proceeds {k : κ} {touch : Bool} (ha : Awaits p op (.notify [] none (.hit none)))
    (hop : ∀ k, op.removes k = false) (ht : Deed.touched? ⟨op, p.now, .returned (.hit none), []⟩ = none)
    (hhit : ∀ e ∈ p.entries, e.key = k →
      Turned still op p (.returned (.hit (some e.value))) ((if touch then p.front e else p).count .getHit)) :
    Proceeds still op p (p.read k touch) := by
  have hp : Since still op p [] p := .refl op p
  unfold read
  cases hf : p.find? k with
  | none => exact (hp.count .getMiss).rests_of_keeps hop ht
  | some e =>
    obtain ⟨hm, he⟩ := find?_eq_some hf
    simp only
    split
    · exact ((((hp.leave e (.inl rfl)).count .getMiss).note .reaped).count .expired).midway ha fun x _ => hop x.key
    · exact hhit e hm he

theorem delete_proceeds (k : κ) (p : Plain κ ν) : Proceeds still (.delete k) p (p.delete k) := by
  have hp : Since still (.delete k) p [] p := .refl (.delete k) p
  unfold delete
  cases hf : p.find? k with
  | none => exact hp.rests rfl (fun _ hg => nomatch hg) fun _ _ => rfl
  | some e =>
    obtain ⟨-, rfl⟩ := find?_eq_some hf
    have hgone : Since still (.delete e.key) p [(e, .deleted)] (p.leave e .deleted) :=
      hp.leave e (.inr ⟨nofun, decide_eq_true rfl⟩)
    refine (hgone.count .removed).midway (.delete e.key) fun x hx => ?_
    have hne := (List.mem_filter.mp hx).2
    exact decide_eq_false fun he => by simp [he] at hne

theorem start_proceeds (look : Index.Op κ → Reply κ ν) (op : Op κ ν) (hn : (p.entries.map (·.key)).Nodup) :
    Proceeds still op p (start look op p) := by
  have hp : Since still op p [] p := .refl op p
  have hkeeps : ∀ {o : Outcome κ ν} {q}, (∀ k, op.removes k = false) → Deed.touched? ⟨op, p.now, o, []⟩ = none →
      p.Beside false q → Turned still op p o q := fun hop ht hb => (hp.rests_of_keeps hop ht).beside hb
  cases op with
  | put k value ttl refusal => exact resumePut_proceeds hp hn
  | getOrPut k value ttl refusal => exact resumeGetOrPut_proceeds hp hn
  | get k =>
    refine read_proceeds (.get k) (fun _ => rfl) rfl fun e he hk => ?_
    subst hk
    exact hp.fronts (fun _ => rfl) rfl (fun _ hst => by cases hst) (fun _ => he) rfl rfl rfl
  | peek k =>
    exact read_proceeds (.peek k) (fun _ => rfl) rfl fun e _ _ => (hp.count .getHit).rests_of_keeps (fun _ => rfl) rfl
  | delete k => exact delete_proceeds k p
  | resize asked =>
    have hb : Since still (.resize asked) p [] (p.setBound asked) := by
      unfold setBound
      split <;> exact ⟨rfl, .refl _, fun _ h => absurd h List.not_mem_nil, fun _ => rfl, rfl⟩
    exact resumeShrink_proceeds hb hn _ 0
  | purge =>
    obtain ⟨gone, hs⟩ := hp.reap (p.entries.filter (·.expired p.now))
    exact resume_proceeds (hs.midway (.purge ..) fun _ _ => rfl) hn
  | clear =>
    have hs : Since still .clear p _ (p.dropAll.count .clear) := (dropAll_since p).count .clear
    exact resume_proceeds (hs.midway (.clear ..) fun _ h => absurd h List.not_mem_nil) hn
  | metrics | snapshot | expose family limit =>
    simp only [start, withSnapshot]
    split <;> exact hkeeps (fun _ => rfl) rfl (.refl p)
  | advance step => exact hkeeps (fun _ => rfl) rfl ⟨rfl, rfl, rfl, rfl, rfl, fun h => absurd h Bool.false_ne_true⟩
  | memory memory => exact hkeeps (fun _ => rfl) rfl ⟨rfl, rfl, rfl, rfl, rfl, fun _ => rfl⟩
  | _ => exact hkeeps (fun _ => rfl) rfl (.refl p)

theorem midway_carries (op : Op κ ν) (hn : (p.entries.map (·.key)).Nodup) :
    Carries still (Midway still op p) (Turned still op p) where
  beside task q q' hb h := by
    obtain ⟨gone, hs⟩ := h.since
    exact ⟨h.awaits, ⟨gone, hs.beside hb⟩, hb.entries ▸ h.rest_kept⟩
  resume task q _ h := resume_proceeds h hn

end Plain

end Recency

import Recency.Cache.Task
import Recency.Proofs.Cache.Consistent
/-
  Recency.Proofs.Cache.Actions — what one action does, whatever the index says.

  The index may be shared. Then it may lead anywhere, and any use of it may fail in the
  middle of an action. All that is asked of the cache is a well-formed chain.

  An action is told twice here, in one rule for each. What it comes to, also where it breaks
  off, are small changes, of a node each and told by one event of the journal (`Stirs`). And
  one that is carried out has dropped entries, overwritten one or begun one stay (`Drops`,
  `Overwrites`, `Enters`). Whoever runs an action cites its rule and takes what it needs.

  `Yields` speaks of what is reached and of the abort, `Meets` of what is reached alone.
-/

namespace Recency

variable {κ ν : Type}

/-! ## Reading a journal -/

def Event.entered? : Event κ ν → Option (Entry κ ν)
  | .entered e => some e
  | _ => none

/-- The entry that the event gave a value to. -/
def Event.stored? : Event κ ν → Option (Entry κ ν)
  | .entered e | .overwritten e => some e
  | _ => none

def Event.notified? : Event κ ν → Option (Entry κ ν)
  | .notified e => some e
  | _ => none

def Event.left? : Event κ ν → Option (Entry κ ν × Cause)
  | .left e cause => some (e, cause)
  | _ => none

/-- The entries as they came, latest first. -/
def enteredIn (journal : List (Event κ ν)) : List (Entry κ ν) := journal.filterMap Event.entered?

/-- The entries as they were stored, latest first. -/
def storedIn (journal : List (Event κ ν)) : List (Entry κ ν) := journal.filterMap Event.stored?

/-- The entries that the callback was called for, latest first. -/
def notifiedIn (journal : List (Event κ ν)) : List (Entry κ ν) := journal.filterMap Event.notified?

/-- The entries that left and why, latest first. -/
def leftIn (journal : List (Event κ ν)) : List (Entry κ ν × Cause) := journal.filterMap Event.left?

theorem readings_left (cause : Cause) (l : List (Entry κ ν)) (journal : List (Event κ ν)) :
    enteredIn ((l.map (.left · cause)).reverse ++ journal) = enteredIn journal ∧
      storedIn ((l.map (.left · cause)).reverse ++ journal) = storedIn journal ∧
      notifiedIn ((l.map (.left · cause)).reverse ++ journal) = notifiedIn journal ∧
      leftIn ((l.map (.left · cause)).reverse ++ journal) = l.reverse.map (·, cause) ++ leftIn journal := by
  simp [enteredIn, storedIn, notifiedIn, leftIn, ← List.map_reverse, List.filterMap_map, Function.comp_def,
    Event.entered?, Event.stored?, Event.notified?, Event.left?, List.filterMap_eq_map']

/-! ## Results -/

namespace Action

/-- What is reached is `good`, or `bad` for the abort that it was reached by. -/
def Yields {α : Type} (good : α → Cache κ ν → Prop) (bad : Abort → Cache κ ν → Prop) :
    EStateM.Result Abort (Cache κ ν) α → Prop
  | .ok a c => good a c
  | .error a c => bad a c

/-- What is reached is `good`, or `broken` if it was reached by any abort. -/
abbrev Meets {α : Type} (good : α → Cache κ ν → Prop) (broken : Cache κ ν → Prop) :
    EStateM.Result Abort (Cache κ ν) α → Prop := Yields good fun _ => broken

variable {α β : Type} {c : Cache κ ν} {good : β → Cache κ ν → Prop} {bad : Abort → Cache κ ν → Prop}

theorem yields_bind {x : Action κ ν α} {f : α → Action κ ν β}
    (h : Yields (fun a d => Yields good bad (f a d)) bad (x c)) : Yields good bad ((x >>= f) c) := by
  rw [bind_apply]
  cases hx : x c with
  | ok a d => rw [hx] at h; exact h
  | error e d => rw [hx] at h; exact h

theorem yields_get {f : Cache κ ν → Action κ ν β} (h : Yields good bad (f c c)) :
    Yields good bad ((get >>= f) c) := h

theorem yields_modify {g : Cache κ ν → Cache κ ν} {f : PUnit → Action κ ν β} (h : Yields good bad (f ⟨⟩ (g c))) :
    Yields good bad ((modify g >>= f) c) := h

end Action

namespace Cache

open Recency.Action

/-! ## Small changes -/

/-- A change of at most one node, or the end of all of them. What it writes of the entries
    is of the kind `A`. -/
inductive Stir (A : Event κ ν → Prop) (c d : Cache κ ν) : Prop
  | aside : d.chain = c.chain → storedIn d.journal = storedIn c.journal → leftIn d.journal = leftIn c.journal →
      Stir A c d
  | enters (n : SlotId × Entry κ ν) : A (.entered n.2) → d.chain.entries = n :: c.chain.entries →
      storedIn d.journal = n.2 :: storedIn c.journal → leftIn d.journal = leftIn c.journal → Stir A c d
  | rewrites (n : SlotId × Entry κ ν) (e : Entry κ ν) : n ∈ c.chain.entries → e.key = n.2.key → A (.overwritten e) →
      d.chain.entries = (n.1, e) :: c.chain.entries.filter (·.1 ≠ n.1) →
      storedIn d.journal = e :: storedIn c.journal → leftIn d.journal = leftIn c.journal → Stir A c d
  | fronts (n : SlotId × Entry κ ν) : n ∈ c.chain.entries →
      d.chain.entries = n :: c.chain.entries.filter (·.1 ≠ n.1) → storedIn d.journal = storedIn c.journal →
      leftIn d.journal = leftIn c.journal → Stir A c d
  | leaves (n : SlotId × Entry κ ν) (cause : Cause) : n ∈ c.chain.entries → A (.left n.2 cause) →
      d.chain.entries = c.chain.entries.filter (·.1 ≠ n.1) →
      storedIn d.journal = storedIn c.journal → leftIn d.journal = (n.2, cause) :: leftIn c.journal → Stir A c d
  | wipes : (∀ e ∈ c.entries, A (.left e .cleared)) → d.chain.entries = [] →
      storedIn d.journal = storedIn c.journal →
      leftIn d.journal = c.entries.map (·, .cleared) ++ leftIn c.journal → Stir A c d

/-- Small changes one after the other, from one well-formed chain to the next. -/
inductive Stirs (A : Event κ ν → Prop) (c : Cache κ ν) : Cache κ ν → Prop
  | refl : c.chain.WellFormed → Stirs A c c
  | tail {d d' : Cache κ ν} : Stirs A c d → Stir A d d' → d'.chain.WellFormed → Stirs A c d'

section Stirs

variable {A : Event κ ν → Prop} {c d e : Cache κ ν}

theorem Stirs.wellFormed (h : Stirs A c d) : d.chain.WellFormed := by
  cases h with
  | refl hc => exact hc
  | tail _ _ hd => exact hd

theorem Stirs.trans (h : Stirs A c d) (h' : Stirs A d e) : Stirs A c e := by
  induction h' with
  | refl _ => exact h
  | tail _ hs hw ih => exact ih.tail hs hw

theorem Stirs.aside (h : Stirs A c d) {d' : Cache κ ν} (hc : d'.chain = d.chain)
    (hs : storedIn d'.journal = storedIn d.journal) (hl : leftIn d'.journal = leftIn d.journal) : Stirs A c d' :=
  h.tail (.aside hc hs hl) (hc ▸ h.wellFormed)

end Stirs

/-! ## Whole changes -/

/-- What every piece leaves as it is. -/
structure Frame (c d : Cache κ ν) : Prop where
  chain : d.chain.WellFormed
  bound : d.bound = c.bound
  notifies : d.notifies = c.notifies
  /-- Uses of the index may bring a failure nearer; none is added. -/
  failing : c.failing = none → d.failing = none
  notified : notifiedIn d.journal = notifiedIn c.journal
  size_eq : c.size.toNat = c.entries.length → d.size.toNat = d.entries.length

structure Drops (gone : List (Entry κ ν)) (c d : Cache κ ν) : Prop extends Frame c d where
  entries : c.entries.Perm (gone ++ d.entries)
  stays : d.stays = c.stays
  entered : enteredIn d.journal = enteredIn c.journal
  stored : storedIn d.journal = storedIn c.journal

structure Overwrites (e e' : Entry κ ν) (c d : Cache κ ν) : Prop extends Frame c d where
  stay : e'.stay = e.stay
  key : e'.key = e.key
  entries : ∃ rest, c.entries.Perm (e :: rest) ∧ d.entries.Perm (e' :: rest)
  stays : d.stays = c.stays
  entered : enteredIn d.journal = enteredIn c.journal
  stored : storedIn d.journal = e' :: storedIn c.journal

structure Enters (e : Entry κ ν) (c d : Cache κ ν) : Prop extends Frame c d where
  room : c.hasRoom = true ∨ c.entries = []
  stay : e.stay = c.stays
  entries : d.entries = e :: c.entries
  stays : d.stays = c.stays + 1
  entered : enteredIn d.journal = e :: enteredIn c.journal
  stored : storedIn d.journal = e :: storedIn c.journal

theorem Frame.trans {c d e : Cache κ ν} (h : Frame c d) (h' : Frame d e) : Frame c e where
  chain := h'.chain
  bound := h'.bound.trans h.bound
  notifies := h'.notifies.trans h.notifies
  failing hf := h'.failing (h.failing hf)
  notified := h'.notified.trans h.notified
  size_eq hs := h'.size_eq (h.size_eq hs)

theorem Drops.trans {c d e : Cache κ ν} {gone gone' : List (Entry κ ν)} (h : Drops gone c d) (h' : Drops gone' d e) :
    Drops (gone ++ gone') c e where
  toFrame := h.toFrame.trans h'.toFrame
  entries := by
    rw [List.append_assoc]
    exact h.entries.trans (h'.entries.append_left gone)
  stays := h'.stays.trans h.stays
  entered := h'.entered.trans h.entered
  stored := h'.stored.trans h.stored

theorem Drops.refl {c : Cache κ ν} (h : c.chain.WellFormed) : Drops [] c c :=
  ⟨⟨h, rfl, rfl, id, rfl, id⟩, .refl _, rfl, rfl, rfl⟩

/-- Nothing that matters to what was dropped has changed. -/
theorem Drops.congr {c d d' : Cache κ ν} {gone : List (Entry κ ν)} (h : Drops gone c d) (hc : d'.chain = d.chain)
    (hz : d'.size = d.size) (hb : d'.bound = d.bound) (hn : d'.notifies = d.notifies)
    (hf : d.failing = none → d'.failing = none) (ht : d'.stays = d.stays)
    (hj : enteredIn d'.journal = enteredIn d.journal) (hj' : storedIn d'.journal = storedIn d.journal)
    (hj'' : notifiedIn d'.journal = notifiedIn d.journal) : Drops gone c d' := by
  have he : d'.entries = d.entries := congrArg Chain.values hc
  exact ⟨⟨hc ▸ h.chain, hb.trans h.bound, hn.trans h.notifies, fun hc => hf (h.failing hc), hj''.trans h.notified,
    fun hs => by rw [hz, he]; exact h.size_eq hs⟩, he ▸ h.entries, ht.trans h.stays, hj.trans h.entered,
    hj'.trans h.stored⟩

theorem Drops.count {c d : Cache κ ν} {gone : List (Entry κ ν)} (h : Drops gone c d) (m : Metric) :
    Drops gone c { d with counters := d.counters.bump m } := h.congr rfl rfl rfl rfl id rfl rfl rfl rfl

theorem Drops.note {c d : Cache κ ν} {gone : List (Entry κ ν)} (h : Drops gone c d) (n : Note) :
    Drops gone c { d with journal := .noted n :: d.journal } := h.congr rfl rfl rfl rfl id rfl rfl rfl rfl

/-- The index was used in between. -/
theorem Drops.used {c d : Cache κ ν} {gone : List (Entry κ ν)} (h : Drops gone c d) {failing : Option Index.Failure}
    (hf : d.failing = none → failing = none) : Drops gone c { d with failing } :=
  h.congr rfl rfl rfl rfl hf rfl rfl rfl rfl

/-! ## The index -/

theorem useIndex_armed {c : Cache κ ν} {f : Index.Failure} (hf : c.failing = some f) (step : Index.Primitive) :
    useIndex step c =
      match f.use step with
      | none => .error (.indexFailed step) { c with failing := none }
      | some later => .ok () { c with failing := some later } := by
  simp only [useIndex, bind_apply, get_apply, hf, modify_apply]
  cases hu : f.use step with
  | none => rfl
  | some later => rfl

/-- Of the uses of an index that is to fail, the one fails that is of that step and comes after as many others
    of it as are to succeed. -/
theorem uses_fail (uses : List Index.Primitive) {c : Cache κ ν} {f : Index.Failure} (hf : c.failing = some f) :
    uses.forM useIndex c =
      if uses.count f.step ≤ f.after then
        .ok () { c with failing := some { f with after := f.after - uses.count f.step } }
      else .error (.indexFailed f.step) { c with failing := none } := by
  induction uses generalizing c f with
  | nil =>
    rw [List.count_nil, if_pos (Nat.zero_le _), Nat.sub_zero, ← hf]
    rfl
  | cons step uses ih =>
    rw [List.forM_eq_forM, List.forM_cons, bind_apply, useIndex_armed hf, ← List.forM_eq_forM]
    by_cases hs : f.step = step
    · subst hs
      rw [List.count_cons_self]
      cases hn : f.after with
      | zero =>
        simp only [Index.Failure.use, if_true, hn]
        rw [if_neg (Nat.not_succ_le_zero _)]
      | succ n =>
        simp only [Index.Failure.use, if_true, hn]
        rw [ih (c := { c with failing := some { f with after := n } }) (f := { f with after := n }) rfl]
        simp only [Nat.add_le_add_iff_right, Nat.add_sub_add_right]
    · rw [List.count_cons_of_ne fun e => hs e.symm]
      simp only [Index.Failure.use, if_neg hs]
      exact ih (c := { c with failing := some f }) rfl

/-- If a use of the index is to fail at `d`, then wherever small changes lead from `c`, that
    failure leaves what is `bad`. -/
def Fails (A : Event κ ν → Prop) (c d : Cache κ ν) (bad : Abort → Cache κ ν → Prop) : Prop :=
  d.failing ≠ none → ∀ step d', Stirs A c d' → bad (.indexFailed step) d'

section Actions

variable {A : Event κ ν → Prop} {c d : Cache κ ν} {bad : Abort → Cache κ ν → Prop}

theorem Fails.mono {d' : Cache κ ν} (h : Fails A c d bad) (hf : d.failing = none → d'.failing = none) :
    Fails A c d' bad := fun hd' => h fun hd => hd' (hf hd)

theorem Fails.use {d' : Cache κ ν} (hb : Fails A c d bad) (h : Stirs A c d') {step : Index.Primitive}
    (hf : d.failing ≠ none) : bad (.indexFailed step) { d' with failing := none } :=
  hb hf step _ (h.aside rfl rfl rfl)

/-- A use that does not fail may bring the failure nearer, and changes nothing else. -/
theorem useIndex_yields {good : Unit → Cache κ ν → Prop} (step : Index.Primitive)
    (hok : ∀ failing, (d.failing = none → failing = none) → good () { d with failing })
    (hbad : d.failing ≠ none → bad (.indexFailed step) { d with failing := none }) :
    Yields good bad (useIndex step d) := by
  cases hf : d.failing with
  | none =>
    have hd := hok d.failing id
    rw [useIndex_eq hf]
    exact hd
  | some f =>
    have hsome : d.failing ≠ none := by rw [hf]; exact Option.some_ne_none f
    rw [useIndex_armed hf]
    cases f.use step with
    | none => exact hbad hsome
    | some later => exact hok (some later) fun hn => absurd hn hsome

variable [DecidableEq κ]

theorem load_yields {good : Option SlotId → Cache κ ν → Prop} (h : Stirs A c d) (hb : Fails A c d bad) (k : κ)
    (hok : ∀ found failing, (d.failing = none → failing = none) → good found { d with failing }) :
    Yields good bad (load k d) :=
  yields_bind (useIndex_yields .load (fun failing hf => hok _ failing hf) (hb.use h))

/-- Whatever the index says, what is located is a node with the key looked for. -/
theorem locate_yields {good : Option (SlotId × Entry κ ν) → Cache κ ν → Prop} (h : Stirs A c d) (hb : Fails A c d bad)
    (k : κ) (hnone : ∀ failing, (d.failing = none → failing = none) → good none { d with failing })
    (hsome : ∀ id e failing, (id, e) ∈ d.chain.entries → e.key = k → (d.failing = none → failing = none) →
      good (some (id, e)) { d with failing }) :
    Yields good bad (locate k d) := by
  refine yields_bind (load_yields h hb k fun found failing hf => ?_)
  cases found with
  | none => exact hnone failing hf
  | some id =>
    refine yields_get ?_
    cases hg : d.chain.get? id with
    | none => exact hnone failing hf
    | some e =>
      simp only
      by_cases hk : e.key = k
      · rw [if_pos hk]
        exact hsome id e failing (h.wellFormed.get?_eq_some_iff.mp hg) hk hf
      · rw [if_neg hk]
        exact hnone failing hf

/-! ## Leaving -/

omit [DecidableEq κ] in
theorem perm_of_mem (hd : d.chain.WellFormed) {id : SlotId} {e : Entry κ ν} (hm : (id, e) ∈ d.chain.entries) :
    d.entries.Perm (e :: (d.chain.entries.filter (·.1 ≠ id)).map (·.2)) := by
  have := (perm_cons_filter_key hd.ids_nodup hm).map (·.2)
  rwa [List.map_cons] at this

theorem detach_yields {good : Option (Entry κ ν) → Cache κ ν → Prop} (h : Stirs A c d) (hb : Fails A c d bad)
    {id : SlotId} {e : Entry κ ν} (hm : (id, e) ∈ d.chain.entries) {cause : Cause} (hA : A (.left e cause))
    (hok : ∀ d', Stirs A c d' → Drops [e] d d' → d'.chain.entries = d.chain.entries.filter (·.1 ≠ id) →
      good (some e) d') :
    Yields good bad (detach id cause d) := by
  obtain ⟨chain, hrem, hwf, hent, -⟩ := h.wellFormed.remove hm
  have hperm : d.entries.Perm (e :: chain.values) := by
    rw [Chain.values, hent]
    exact perm_of_mem h.wellFormed hm
  have hd : Stirs A c { d with chain, journal := .left e cause :: d.journal } :=
    h.tail (.leaves (id, e) cause hm hA hent rfl rfl) hwf
  refine yields_get ?_
  simp only [hrem]
  refine yields_modify (yields_modify (yields_bind (yields_bind ?_)))
  refine useIndex_yields .compute (fun failing hf => ?_) (hb.use hd)
  refine hok _ (hd.aside rfl rfl rfl) ⟨⟨hwf, rfl, rfl, hf, rfl, fun hs => ?_⟩, hperm, rfl, rfl, rfl⟩ hent
  show (d.size - 1).toNat = chain.values.length
  have hl := hperm.length_eq
  simp only [List.length_cons] at hl
  rw [toNat_sub_one (by omega)]
  omega

theorem evict_yields {good : Option (Entry κ ν) → Cache κ ν → Prop} (h : Stirs A c d) (hb : Fails A c d bad)
    (hA : ∀ e, A (.left e .capacity)) (hnone : d.entries = [] → good none d)
    (hsome : ∀ e d', Stirs A c d' → Drops [e] d d' → good (some e) d') : Yields good bad (evict d) := by
  refine yields_get ?_
  simp only [h.wellFormed.backId?_eq]
  cases hl : d.chain.entries.getLast? with
  | none =>
    rw [List.getLast?_eq_none_iff] at hl
    exact hnone (List.map_eq_nil_iff.mpr hl)
  | some n =>
    refine yields_bind (detach_yields h hb (List.mem_of_getLast? hl) (hA n.2) fun d' hs hd _ => ?_)
    exact hsome n.2 _ (hs.aside rfl rfl rfl) ((hd.note _).count _)

theorem reap_yields {good : List (Entry κ ν) → Cache κ ν → Prop} {l : List (SlotId × Entry κ ν)} (h : Stirs A c d)
    (hb : Fails A c d bad) (hA : ∀ e, A (.left e .expired)) (hl : ∀ p ∈ l, p ∈ d.chain.entries)
    (hn : (l.map (·.1)).Nodup) (hok : ∀ d', Stirs A c d' → Drops (l.map (·.2)) d d' → good (l.map (·.2)) d') :
    Yields good bad (Cache.reap (l.map (·.1)) d) := by
  induction l generalizing d good with
  | nil => exact hok d h (.refl h.wellFormed)
  | cons p l ih =>
    obtain ⟨id, e⟩ := p
    obtain ⟨hid, hn⟩ := List.nodup_cons.mp hn
    rw [List.map_cons, Cache.reap]
    refine yields_bind (detach_yields h hb (hl (id, e) (by simp)) (hA e) fun d' hs hd hent => ?_)
    have hl' : ∀ p ∈ l, p ∈ d'.chain.entries := fun p hp => by
      have hne : p.1 ≠ id := fun hp' => hid (List.mem_map.mpr ⟨p, hp, hp'⟩)
      rw [hent]
      exact List.mem_filter.mpr ⟨hl p (by simp [hp]), by simpa using hne⟩
    refine yields_modify (yields_bind ?_)
    refine ih (d := { d' with counters := d'.counters.bump .expired }) (hs.aside rfl rfl rfl) (hb.mono hd.failing) hl'
      hn fun d'' hs' hd' => ?_
    exact hok d'' hs' ((hd.count _).trans hd')

omit [DecidableEq κ] in
theorem dropAll_yields {good : List (Entry κ ν) → Cache κ ν → Prop} (h : Stirs A c d) (hb : Fails A c d bad)
    (hA : ∀ e, A (.left e .cleared))
    (hok : ∀ d', Stirs A c d' → Drops d.entries.reverse d d' → good d.entries.reverse d') :
    Yields good bad (Cache.dropAll d) := by
  obtain ⟨hwf, hent⟩ := Chain.wellFormed_clear d.chain
  have hval : d.chain.clear.values = [] := by rw [Chain.values, hent]; rfl
  obtain ⟨hentered, hstored, hnotified, hleft⟩ := readings_left .cleared d.entries.reverse d.journal
  rw [List.reverse_reverse] at hleft
  refine yields_get (yields_modify (yields_bind ?_))
  rw [forM_left]
  refine yields_bind (yields_bind ?_)
  have hd : Stirs A c { d with
      chain := d.chain.clear
      size := 0
      journal := (d.entries.reverse.map (.left · .cleared)).reverse ++ d.journal } :=
    h.tail (.wipes (fun e _ => hA e) hent hstored hleft) hwf
  refine useIndex_yields .clear (fun failing hf => ?_) (hb.use hd)
  refine hok _ (hd.aside rfl rfl rfl) ⟨⟨hwf, rfl, rfl, hf, hnotified, fun _ => ?_⟩, ?_, rfl, hentered, hstored⟩
  · show _ = d.chain.clear.values.length
    rw [hval]; rfl
  · show d.entries.Perm (d.entries.reverse ++ d.chain.clear.values)
    rw [hval, List.append_nil]
    exact (List.reverse_perm _).symm

/-! ## Coming and staying -/

theorem enter_yields {good : Except ArenaError Unit → Cache κ ν → Prop} (h : Stirs A c d) (hb : Fails A c d bad)
    (hroom : d.hasRoom = true ∨ d.entries = []) {k : κ} (value : ν) (deadline : Option Instant)
    (hA : ∀ e, e.key = k → A (.entered e)) (herr : ∀ e, good (.error e) d)
    (hok : ∀ e d', Stirs A c d' → Enters e d d' → good (.ok ()) d') :
    Yields good bad (Cache.enter k value deadline d) := by
  refine yields_get ?_
  cases hp : d.chain.pushFront d.memory ⟨d.stays, k, value, deadline⟩ with
  | error e => exact herr e
  | ok p =>
    obtain ⟨id, chain⟩ := p
    obtain ⟨hwf, hent⟩ := h.wellFormed.pushFront hp
    have hval : chain.values = ⟨d.stays, k, value, deadline⟩ :: d.entries := by rw [Chain.values, hent]; rfl
    have hd : Stirs A c { d with
        chain, stays := d.stays + 1, journal := .entered ⟨d.stays, k, value, deadline⟩ :: d.journal } :=
      h.tail (.enters (id, ⟨d.stays, k, value, deadline⟩) (hA _ rfl) hent rfl rfl) hwf
    refine yields_modify (yields_modify (yields_bind (yields_bind ?_)))
    refine useIndex_yields .store (fun failing hf => ?_) (hb.use hd)
    refine hok ⟨d.stays, k, value, deadline⟩ _ (hd.aside rfl rfl rfl)
      ⟨⟨hwf, rfl, rfl, hf, rfl, fun hs => ?_⟩, hroom, rfl, hval, rfl, rfl, rfl⟩
    show (d.size + 1).toNat = chain.values.length
    have hl : d.size.toNat + 1 = chain.values.length := by rw [hval, hs]; rfl
    rw [toNat_add_one hwf hl, hl]

omit [DecidableEq κ] in
theorem overwrite_yields {good : Unit → Cache κ ν → Prop} (h : Stirs A c d) {id : SlotId} {e : Entry κ ν}
    (hm : (id, e) ∈ d.chain.entries) (value : ν) (deadline : Option Instant)
    (hA : A (.overwritten { e with value, deadline }))
    (hok : ∀ d', Stirs A c d' → Overwrites e { e with value, deadline } d d' → good () d') :
    Yields good bad (Cache.overwrite id e value deadline d) := by
  obtain ⟨hwf, hent, -⟩ := h.wellFormed.setFront hm { e with value, deadline }
  have hperm := perm_of_mem h.wellFormed hm
  have hval : ((d.chain.set id { e with value, deadline }).2.moveToFront id).2.values =
      { e with value, deadline } :: (d.chain.entries.filter (·.1 ≠ id)).map (·.2) := by
    rw [Chain.values, hent]; rfl
  have hd : Stirs A c { d with
      chain := ((d.chain.set id { e with value, deadline }).2.moveToFront id).2
      journal := .overwritten { e with value, deadline } :: d.journal } :=
    h.tail (.rewrites (id, e) { e with value, deadline } hm rfl hA hent rfl rfl) hwf
  refine hok _ (hd.aside rfl rfl rfl)
    ⟨⟨hwf, rfl, rfl, fun hf => hf, rfl, fun hs => ?_⟩, rfl, rfl, ⟨_, hperm, ?_⟩, rfl, rfl, rfl⟩
  · show d.size.toNat = ((d.chain.set id { e with value, deadline }).2.moveToFront id).2.values.length
    rw [hs, hval, hperm.length_eq]
    rfl
  · show (((d.chain.set id { e with value, deadline }).2.moveToFront id).2.values).Perm _
    rw [hval]

omit [DecidableEq κ] in
/-- A node that is moved to the front is still there. -/
theorem promote_yields {good : Unit → Cache κ ν → Prop} (h : Stirs A c d) {id : SlotId} {e : Entry κ ν}
    (hm : (id, e) ∈ d.chain.entries)
    (hok : ∀ chain, (id, e) ∈ chain.entries → Stirs A c { d with chain } → Drops [] d { d with chain } →
      good () { d with chain }) :
    Yields good bad (promote id d) := by
  obtain ⟨-, hwf, hent, -⟩ := h.wellFormed.moveToFront hm
  have hperm : d.entries.Perm (d.chain.moveToFront id).2.values := by
    rw [Chain.values, hent]
    exact perm_of_mem h.wellFormed hm
  refine hok _ (hent ▸ List.mem_cons_self) (h.tail (.fronts (id, e) hm hent rfl rfl) hwf)
    ⟨⟨hwf, rfl, rfl, fun hf => hf, rfl, fun hs => ?_⟩, hperm, rfl, rfl, rfl⟩
  show d.size.toNat = (d.chain.moveToFront id).2.values.length
  rw [hs, hperm.length_eq]

/-! ## Looking -/

theorem has_yields {good : Bool → Cache κ ν → Prop} (h : Stirs A c d) (hb : Fails A c d bad) (k : κ)
    (hok : ∀ found failing, (d.failing = none → failing = none) → good found { d with failing }) :
    Yields good bad (Cache.has k d) := by
  refine yields_bind (load_yields h hb k fun found failing hf => ?_)
  split
  · exact hok _ failing hf
  · refine yields_bind (locate_yields (d := { d with failing }) (h.aside rfl rfl rfl) (hb.mono hf) k ?_ ?_)
    · exact fun failing' hf' => hok _ failing' fun hn => hf' (hf hn)
    · exact fun id e failing' _ _ hf' => hok _ failing' fun hn => hf' (hf hn)

theorem misdirected?_yields {good : Option SlotId → Cache κ ν → Prop} (h : Stirs A c d) (hb : Fails A c d bad)
    (hok : ∀ found failing, (d.failing = none → failing = none) → good found { d with failing })
    (l : List (SlotId × Entry κ ν)) : Yields good bad (misdirected? l d) := by
  induction l generalizing d with
  | nil => exact hok none d.failing id
  | cons p l ih =>
    refine yields_bind (load_yields h hb p.2.key fun found failing hf => ?_)
    split
    · exact ih (d := { d with failing }) (h.aside rfl rfl rfl) (hb.mono hf) fun found failing' hf' =>
        hok found failing' fun hn => hf' (hf hn)
    · exact hok _ failing hf

theorem check_yields {good : Option Fault → Cache κ ν → Prop} (h : Stirs A c d) (hb : Fails A c d bad)
    (hok : ∀ found failing, (d.failing = none → failing = none) → good found { d with failing }) :
    Yields good bad (Cache.check d) := by
  refine yields_get ?_
  simp only [h.wellFormed.check_eq]
  split
  · exact hok _ d.failing id
  split
  · exact hok _ d.failing id
  split
  · exact hok _ d.failing id
  · exact yields_bind (misdirected?_yields h hb (fun _ => hok _) _)

omit [DecidableEq κ] in
theorem snapshot_yields {good : Snapshot → Cache κ ν → Prop} (hok : ∀ s, good s c)
    (hover : bad .overflow c) : Yields good bad (Cache.snapshot c) := by
  refine yields_get ?_
  cases c.counters.snapshot? c.size c.bound with
  | none => exact hover
  | some s => exact hok s

end Actions

end Cache

end Recency

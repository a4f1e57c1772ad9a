import Recency.Proofs.Cache.Stirs
import Recency.Proofs.Session.Capacity
import Recency.Proofs.Session.Trail
/-
  Recency.Proofs.Session.Misled — a cache stays safe whatever its index says.

  The index is shared, and its other holders do what they like: between operations and inside
  callbacks they store, delete, compute and clear, with handles that are stale or forged or
  lead to the node of another key, and they make uses of it fail. Then two nodes may
  have one key, a node may have no mapping, and an operation may break off half way.

  What holds all the same rests on the chain alone. Its links and slots agree; every node is
  as it was stored; a value that is read is that of a node with the key that was asked for;
  a store touches no node with another key, but for those it drops; the end of a node unmaps
  no other (`Safe`, `detach_maps`). Only the count of the nodes depends on the index, and
  there only on that no use of it fails: half of a store or of a removal is not counted.
  And clearing makes all agree again (`perform_clear`).
-/

namespace Recency

variable {κ ν : Type}

/-- Neither uses the cache nor edits its index. -/
def Op.outside : Op κ ν → Bool
  | .advance _ | .elapsed | .abort _ | .memory _ | .failIndex _ => true
  | .index op => !op.edits
  | _ => false

/-- Has only to hand out entries. -/
def Task.notifies : Task κ ν → Bool
  | .notify _ _ _ => true
  | _ => false

/-- Neither did the index fail nor did a callback abort. -/
def Piece.undisturbed {σ : Type} (p : Piece σ κ ν) : Bool :=
  match p.abort? with
  | none => true
  | some a => !a.ofIndex && p.depth = 0

namespace Cache

open Recency.Action

/-! ## The index -/

section Index

variable [DecidableEq κ] {c : Cache κ ν}

/-- The end of a node removes no mapping to another slot, also when it breaks off. -/
theorem detach_maps {id i : SlotId} {k : κ} (h : c.index.get? k = some i) (hi : i ≠ id) (cause : Cause) :
    Meets (fun _ d => d.index.get? k = some i) (fun d => d.index.get? k = some i) (detach id cause c) := by
  refine yields_get ?_
  cases c.chain.remove id with
  | none => exact h
  | some p =>
    refine yields_modify (yields_modify (yields_bind (yields_bind ?_)))
    refine useIndex_yields .compute (fun failing _ => ?_) fun _ => h
    show (c.index.update p.1.key _).get? k = some i
    rw [Index.get?_update]
    by_cases hk : k = p.1.key
    · subst hk
      simp [h, hi]
    · rw [if_neg hk]
      exact h

end Index

/-! ## Counting -/

/-- The cache with no step of its index made to fail. -/
def unarmed (c : Cache κ ν) : Cache κ ν := { c with failing := none }

/-- The nodes are counted, and within the bound or about to be brought there. -/
def Fits (c : Cache κ ν) (ts : List (Task κ ν)) : Prop := c.unarmed.Sound ∧ c.Capped ts

variable {c d : Cache κ ν} {op : Op κ ν} {calls : List (Call κ ν)}

theorem Moves.unarmed {pending : List (Entry κ ν)} {progress : Progress κ ν} (h : Moves c pending (.ok progress d)) :
    Moves c.unarmed pending (.ok progress d.unarmed) := by
  have hf : Frame c d → Frame c.unarmed d.unarmed := fun h =>
    ⟨h.chain, h.bound, h.notifies, fun _ => rfl, h.notified, h.size_eq⟩
  have hd : ∀ {gone}, Drops gone c d → Drops gone c.unarmed d.unarmed := fun h =>
    ⟨hf h.toFrame, h.entries, h.stays, h.entered, h.stored⟩
  cases h with
  | keeps reply h hn => exact .keeps reply (hd h) hn
  | overwrites reply h =>
    exact .overwrites reply ⟨hf h.toFrame, h.stay, h.key, h.entries, h.stays, h.entered, h.stored⟩
  | enters reply h =>
    exact .enters reply ⟨hf h.toFrame, h.room, h.stay, h.entries, h.stays, h.entered, h.stored⟩
  | releases h hv => exact .releases (hd h) hv

theorem Moves.fits {pending : List (Entry κ ν)} {progress : Progress κ ν} {ts : List (Task κ ν)}
    (h : Moves c pending (.ok progress d)) (hc : c.Fits ts) : d.Fits ts := by
  obtain ⟨hs, hcap⟩ := hc
  refine ⟨h.unarmed.sound hs, ?_⟩
  rcases hcap with hb | hts
  · exact .inl (h.unarmed.within hs hb)
  · exact .inr hts

theorem Same.fits {ts : List (Task κ ν)} (h : Same c d) (hc : c.Fits ts) : d.Fits ts := by
  obtain ⟨⟨hw, hs, -, hp⟩, hcap⟩ := hc
  have he : d.entries = c.entries := congrArg Chain.values h.chain
  refine ⟨⟨?_, ?_, rfl, ?_⟩, ?_⟩
  · exact (congrArg Chain.WellFormed h.chain).mpr hw
  · show d.size.toNat = d.entries.length
    rw [h.size, he]
    exact hs
  · show 0 < d.bound.toNat
    rw [h.bound]
    exact hp
  · unfold Capped
    rw [h.size, h.bound]
    exact hcap

theorem Fits.mono {ts ts' : List (Task κ ν)} (h : c.Fits ts) (hts : ∀ t ∈ ts, t ∈ ts') : c.Fits ts' := by
  refine ⟨h.1, h.2.imp id ?_⟩
  rintro ⟨t, ht, hs⟩
  exact ⟨t, hts t ht, hs⟩

/-- The result of a piece that was not disturbed: only an operation that nobody waits for may
    abort, and not because of the index. -/
def Undisturbed (calls : List (Call κ ν)) (r : EStateM.Result Abort (Cache κ ν) (Progress κ ν)) : Prop :=
  ∀ a d, r = .error a d → a.ofIndex = false ∧ calls = []

/-- What goes on after a piece is counted. -/
abbrev LandsFit (op : Op κ ν) (calls : List (Call κ ν)) : EStateM.Result Abort (Cache κ ν) (Progress κ ν) → Prop :=
  Engine.Lands (fun d calls => d.Fits (calls.map (·.task))) op calls

/-- `ready` is `c` as the piece finds it, with what it was to get ready for. -/
theorem Moves.lands {ready : Cache κ ν} {pending : List (Entry κ ν)}
    {r : EStateM.Result Abort (Cache κ ν) (Progress κ ν)} (hm : Moves ready pending r)
    (hr : ready.Fits (calls.map (·.task))) (hw : Works op c r) (hc : c.Fits (calls.map (·.task)))
    (hu : Undisturbed calls r) : LandsFit op calls r := by
  match r, hm, hw, hu with
  | .error a d, _, hw, hu =>
    obtain ⟨ha, rfl⟩ := hu a d rfl
    rcases hw.2 with hi | hs
    · rw [ha] at hi
      cases hi
    · exact hs.fits hc
  | .ok (.done reply) d, hm, _, _ => exact hm.fits hr
  | .ok (.release victim task) d, hm, _, _ => exact (hm.fits hr).mono fun t ht => List.mem_cons_of_mem _ ht

variable [DecidableEq κ]

/-- A resize ends within the bound or goes on, and only the index can make it abort. -/
theorem resumeShrink_settles (hc : c.unarmed.Sound) (bound : UInt64) (dropped : Nat) :
    Yields
      (fun progress d => match progress with
        | .done _ => d.size ≤ d.bound
        | .release _ task => task.shrinks = true)
      (fun a _ => a.ofIndex = true) (Cache.resumeShrink bound dropped c) := by
  have h : Stirs (fun _ : Event κ ν => True) c c := .refl hc.chain
  have hb : Fails (fun _ => True) c c fun a _ => a.ofIndex = true := fun _ _ _ _ => rfl
  refine yields_get ?_
  by_cases hover : c.bound < c.size
  · rw [if_pos hover]
    refine yields_bind (evict_yields h hb (fun _ => trivial) ?_ fun e d _ _ => rfl)
    -- a cache above its bound is not empty
    intro hnil
    have hs : c.size.toNat = c.entries.length := hc.size_eq
    rw [hnil, List.length_nil] at hs
    rw [UInt64.lt_iff_toNat_lt] at hover
    omega
  · rw [if_neg hover]
    exact UInt64.not_lt.mp hover

theorem resumeShrink_lands (hc : c.unarmed.Sound) (bound : UInt64) (dropped : Nat)
    (hu : Undisturbed calls (Cache.resumeShrink bound dropped c)) :
    LandsFit op calls (Cache.resumeShrink bound dropped c) := by
  have hs := resumeShrink_settles hc bound dropped
  have hm := resumeShrink_moves (c := c) hc.chain bound dropped
  generalize Cache.resumeShrink bound dropped c = r at hs hm hu
  match r, hs, hm, hu with
  | .error a d, hs, _, hu =>
    have ha : a.ofIndex = true := hs
    rw [(hu a d rfl).1] at ha
    cases ha
  | .ok (.done reply) d, hs, hm, _ => exact ⟨hm.unarmed.sound hc, .inl hs⟩
  | .ok (.release victim task) d, hs, hm, _ => exact ⟨hm.unarmed.sound hc, .inr ⟨task, List.mem_cons_self, hs⟩⟩

theorem resume_lands (hi : c.Intact) {p : Plain κ ν} {task : Task κ ν} (ha : Plain.Awaits p op task)
    (hc : c.Fits (task :: calls.map (·.task))) (hu : Undisturbed calls (Cache.resume task c)) :
    LandsFit op calls (Cache.resume task c) := by
  have hm := resume_moves hi.chain task
  have hw := resume_works hi ha
  obtain ⟨hs, hb | ⟨t, ht, hshrinks⟩⟩ := hc
  · exact hm.lands ⟨hs, .inl hb⟩ hw ⟨hs, .inl hb⟩ hu
  rcases List.mem_cons.mp ht with rfl | ht
  · cases t with
    | shrink bound dropped => exact resumeShrink_lands hs bound dropped hu
    | _ => cases hshrinks
  · exact hm.lands ⟨hs, .inr ⟨t, ht, hshrinks⟩⟩ hw ⟨hs, .inr ⟨t, ht, hshrinks⟩⟩ hu

theorem start_lands (hi : c.Intact) (op : Op κ ν) (hc : c.Fits (calls.map (·.task)))
    (hu : Undisturbed calls (Cache.start op c)) : LandsFit op calls (Cache.start op c) := by
  have hm := start_moves hi.chain op
  have hw := start_works hi op
  cases op with
  | resize asked =>
    have hs : (c.primed (.resize asked)).unarmed.Sound :=
      ⟨hc.1.chain, hc.1.size_eq, rfl, effectiveBound_pos asked⟩
    rw [resize_eq] at hu ⊢
    exact resumeShrink_lands hs _ 0 hu
  | _ => exact hm.lands hc hw hc hu

/-! ## Clearing -/

/-- Nothing is in the cache, and the index says so. -/
structure Blank (c : Cache κ ν) : Prop where
  chain : c.chain.WellFormed
  nodes : c.chain.entries = []
  size : c.size = 0
  index : c.index = .empty

theorem Blank.check (h : c.Blank) : Cache.check c = .ok none c := by
  have hl : c.chain.length = 0 := by
    rw [h.chain.length_eq, h.nodes]
    rfl
  have hb : ¬ c.bound < 0 := UInt64.not_lt.mpr UInt64.zero_le
  have hi : (Index.empty : Index κ).size = 0 := rfl
  simp only [Cache.check, bind_apply, get_apply, h.chain.check_eq, hl, h.size, h.index, h.nodes, hi, hb, if_false,
    misdirected?, pure_apply, Option.map_none, ne_eq, UInt64.toNat_zero, not_true_eq_false]

omit [DecidableEq κ] in
theorem Blank.congr {d : Cache κ ν} (h : c.Blank) (hc : d.chain = c.chain) (hs : d.size = c.size)
    (hi : d.index = c.index) : d.Blank :=
  ⟨hc ▸ h.chain, hc ▸ h.nodes, hs.trans h.size, hi.trans h.index⟩

/-- The cache is blank and there is nothing more to be done than to notify. -/
def Emptied (c : Cache κ ν) (calls : List (Call κ ν)) : Prop :=
  c.Blank ∧ ∀ call ∈ calls, call.task.notifies = true

omit [DecidableEq κ] in
theorem dropAll_blank (c : Cache κ ν) : Meets (fun _ d => d.Blank) (fun _ => True) (Cache.dropAll c) := by
  obtain ⟨hwf, hent⟩ := Chain.wellFormed_clear c.chain
  refine yields_get (yields_modify (yields_bind ?_))
  rw [forM_left]
  refine yields_bind (yields_bind ?_)
  exact useIndex_yields .clear (fun _ _ => ⟨hwf, hent, rfl, rfl⟩) fun _ => trivial

theorem notify_empties {op : Op κ ν} {calls : List (Call κ ν)} (h : c.Emptied calls) (victims : List (Entry κ ν))
    (ending : Option Note) (reply : Reply κ ν) :
    Engine.Lands Emptied op calls (Cache.resume (.notify victims ending reply) c) := by
  cases victims with
  | cons victim victims =>
    refine ⟨h.1, ?_⟩
    intro call hc
    rcases List.mem_cons.mp hc with rfl | hc
    · rfl
    · exact h.2 call hc
  | nil =>
    cases ending with
    | none => exact h
    | some n => exact ⟨h.1.congr rfl rfl rfl, h.2⟩

omit [DecidableEq κ] in
theorem meets_of_lands {J : Cache κ ν → List (Call κ ν) → Prop} {r : EStateM.Result Abort (Cache κ ν) (Progress κ ν)}
    (h : Engine.Lands J op calls r) :
    Meets (fun progress d => Engine.Lands J op calls (.ok progress d)) (fun _ => True) r := by
  cases r with
  | error a d => trivial
  | ok progress d => exact h

/-- A clear that is not broken off leaves a blank cache to its callbacks. -/
theorem clear_empties (c : Cache κ ν) :
    Meets (fun progress d => Engine.Lands Emptied .clear [] (.ok progress d)) (fun _ => True)
      (Cache.start .clear c) := by
  refine yields_get (yields_bind ?_)
  have hd := dropAll_blank c
  generalize Cache.dropAll c = r at hd ⊢
  cases r with
  | error a d => trivial
  | ok victims d =>
    have hb : d.Blank := hd
    have hc : Emptied { d with counters := d.counters.bump .clear } [] := ⟨hb.congr rfl rfl rfl, fun _ h => nomatch h⟩
    exact meets_of_lands (notify_empties hc (if c.notifies then victims else []) (some (.cleared c.size)) .unit)

theorem emptied_hands : (engine : Engine (Cache κ ν) κ ν).Hands (fun op => op.outside = true) Emptied where
  start op calls c hop h := by
    have hsame : ∀ d : Cache κ ν, d.chain = c.chain → d.size = c.size → d.index = c.index → d.Emptied calls :=
      fun d hc hs hi => ⟨h.1.congr hc hs hi, h.2⟩
    cases op with
    | advance step => exact hsame _ rfl rfl rfl
    | elapsed => exact h
    | abort message => exact ⟨h.1, fun _ h => nomatch h⟩
    | memory memory => exact hsame _ rfl rfl rfl
    | failIndex step => exact hsame _ rfl rfl rfl
    | index op =>
      simp only [engine, Cache.start, bind_apply, get_apply]
      split
      · cases op with
        | load k => exact hsame _ rfl rfl rfl
        | isEmpty => exact hsame _ rfl rfl rfl
        | _ => cases hop
      · exact h
    | _ => cases hop
  resume call calls c h := by
    obtain ⟨op, task⟩ := call
    have hc : c.Emptied calls := ⟨h.1, fun call hc => h.2 call (List.mem_cons_of_mem _ hc)⟩
    have ht : task.notifies = true := h.2 _ List.mem_cons_self
    cases task with
    | notify victims ending reply => exact notify_empties hc victims ending reply
    | _ => cases ht
  notified _ _ _ h := ⟨h.1.congr rfl rfl rfl, h.2⟩
  answered _ _ _ _ h := ⟨h.1.congr rfl rfl rfl, h.2⟩

end Cache

/-! ## Along a run -/

variable [DecidableEq κ]

/-- Clearing makes chain, index and count agree, whatever they were before. -/
theorem Session.perform_clear {c : Cache κ ν} {rs : List (Reaction κ ν)}
    (hrs : ∀ r ∈ rs, ∀ op ∈ r.ops, op.outside = true) {reply : Reply κ ν} {s : Session (Cache κ ν) κ ν}
    (h : Session.perform Cache.engine .clear ⟨c, rs⟩ = (.returned reply, s)) : s.cache.Blank := by
  let m := Machine.start Cache.engine .clear ⟨c, rs⟩
  have hl := Cache.clear_empties c
  cases hr : Cache.start .clear c with
  | error a d =>
    have hm : m.control = .finished (.aborted a) := by simp only [m, Machine.start, Cache.engine, hr, Machine.settle]
    have hrun : ∀ n, m.run Cache.engine n = m := by
      intro n
      cases n with
      | zero => rfl
      | succ n => simp only [Machine.run, hm]
    have ho : (Session.perform Cache.engine .clear ⟨c, rs⟩).1 = .aborted a := by
      show Machine.outcome (m.run Cache.engine _) = _
      rw [hrun, Machine.outcome, hm]
    rw [h] at ho
    cases ho
  | ok progress d =>
    rw [hr] at hl
    have hm : Cache.Emptied m.cache m.control.calls := by
      refine Machine.settle_lands Cache.emptied_hands.notified Cache.emptied_hands.answered .clear [] rs ?_
      exact (congrArg (Engine.Lands Cache.Emptied .clear []) hr).mpr hl
    have hu : m.Upholds fun op => op.outside = true := Machine.upholds_start Cache.engine hrs .clear
    have hrun := Machine.run_lands Cache.emptied_hands (m.potential Cache.engine) hu hm
    have hs : (m.run Cache.engine (m.potential Cache.engine)).toSession = s := congrArg Prod.snd h
    exact hs ▸ hrun.1

namespace Piece

/-- A value that the piece answers is one that the cache offers, and a store touches no node
    with another key, unless it drops it. -/
structure Honest (p : Piece (Cache κ ν) κ ν) : Prop where
  serves : ∀ reply, p.reply? = some reply → p.after.Serves p.op reply
  spares : ∀ k value ttl refusal, p.op = .put k value ttl refusal → Cache.Spares k p.before p.after

variable {p : Piece (Cache κ ν) κ ν}

omit [DecidableEq κ] in
theorem honest_of_works (h : Cache.Works p.op p.before p.result) : p.Honest := by
  refine ⟨?_, ?_⟩
  · intro reply hr
    obtain ⟨op, depth, c, r⟩ := p
    cases r with
    | error a d => cases hr
    | ok progress d =>
      cases progress with
      | release victim task => cases hr
      | done reply' =>
        cases (show reply' = reply from Option.some.inj hr)
        exact h.2
  · intro k value ttl refusal hop
    have hs : Cache.Stirs p.op.writes p.before p.after := p.keeps_iff.mp h.stirs
    rw [hop] at hs
    exact hs.spares

omit [DecidableEq κ] in
theorem undisturbed_result {op : Op κ ν} {c : Cache κ ν} {calls : List (Call κ ν)}
    {r : EStateM.Result Abort (Cache κ ν) (Progress κ ν)}
    (h : (⟨op, calls.length, c, r⟩ : Piece (Cache κ ν) κ ν).undisturbed = true) : Cache.Undisturbed calls r := by
  intro a d hr
  subst hr
  simpa [undisturbed, abort?] using h

end Piece

namespace Machine

/-- What holds at every moment, of the pieces so far, of the cache and of the calls under way. -/
structure Safe (ps : List (Piece (Cache κ ν) κ ν)) (c : Cache κ ν) (calls : List (Call κ ν)) : Prop where
  intact : c.Intact
  honest : ∀ p ∈ ps, p.Honest
  fits : (∀ p ∈ ps, p.undisturbed = true) → c.Fits (calls.map (·.task))

omit [DecidableEq κ] in
/-- A piece leads on from what is safe, if it counts the nodes. -/
theorem Safe.lands {ps : List (Piece (Cache κ ν) κ ν)} {op : Op κ ν} {calls calls' : List (Call κ ν)} {c : Cache κ ν}
    {r : EStateM.Result Abort (Cache κ ν) (Progress κ ν)} (h : Safe ps c calls') (hw : Cache.Works op c r)
    (hf : c.Fits (calls'.map (·.task)) → Cache.Undisturbed calls r → Cache.LandsFit op calls r) :
    Engine.Lands (Safe (⟨op, calls.length, c, r⟩ :: ps)) op calls r := by
  have hhonest : ∀ p ∈ (⟨op, calls.length, c, r⟩ : Piece (Cache κ ν) κ ν) :: ps, p.Honest := by
    intro p hp
    rcases List.mem_cons.mp hp with rfl | hp
    · exact Piece.honest_of_works hw
    · exact h.honest p hp
  refine Engine.lands_of hw.stirs ?_ fun d calls hd hfits => ⟨hd.intact h.intact, hhonest, hfits⟩
  intro hu
  have hc := h.fits fun p hp => hu p (List.mem_cons_of_mem _ hp)
  exact hf hc (Piece.undisturbed_result (hu _ List.mem_cons_self))

omit [DecidableEq κ] in
theorem Safe.record {ps : List (Piece (Cache κ ν) κ ν)} {c : Cache κ ν} {calls : List (Call κ ν)} {e : Event κ ν}
    (h : Safe ps c calls) (he : e.ofMachine = true) : Safe ps { c with journal := e :: c.journal } calls := by
  have hsame : Cache.Same c { c with journal := e :: c.journal } := ⟨rfl, rfl, rfl⟩
  refine ⟨⟨h.intact.chain, ?_⟩, h.honest, fun hu => hsame.fits (h.fits hu)⟩
  have hs : storedIn (e :: c.journal) = storedIn c.journal := by
    cases e with
    | notified e => rfl
    | answered op reply => rfl
    | _ => cases he
  intro n hn
  exact hs ▸ h.intact.stored n hn

theorem safe_build (cfg : Settings) : Safe [] (cfg.build : Cache κ ν) [] := by
  have hs := (Cache.build_steady (κ := κ) (ν := ν) cfg).1
  have hnil : (cfg.build : Cache κ ν).chain.entries = [] := (Chain.wellFormed_withCapacity _).2
  refine ⟨⟨hs.chain, ?_⟩, fun _ hp => (nomatch hp), fun _ => ⟨⟨hs.chain, hs.size_eq, rfl, hs.bound_pos⟩, .inl ?_⟩⟩
  · intro n hn
    rw [hnil] at hn
    cases hn
  · exact UInt64.zero_le

variable {cfg : Settings} {rs : List (Reaction κ ν)} {ps : List (Piece (Cache κ ν) κ ν)} {m : Machine (Cache κ ν) κ ν}

theorem Trail.safe (h : Trail Cache.engine (fun _ => True) ⟨cfg.build, rs⟩ ps m) :
    Safe ps m.cache m.control.calls := by
  refine h.carries_waiting (J := Safe) ?_ ?_ ?_ (fun _ _ _ _ => trivial) (safe_build cfg)
  · exact fun ps e c calls he h => h.record he
  · intro ps op calls c _ h
    exact h.lands (Cache.start_works h.intact op) (Cache.start_lands h.intact op)
  · intro ps p op task calls c ha h
    exact h.lands (Cache.resume_works h.intact ha) (Cache.resume_lands h.intact ha)

/-- Whatever others write into the index, and whichever step of it fails: the chain passes its
    check at every moment; what is answered for a key is the value of a node with that key,
    stored so and not expired; a store leaves the nodes with other keys as they are, or drops
    them to make room; and the end of a node removes no mapping to another slot. If no step of
    the index fails and no callback aborts, the nodes are counted, and within the bound when
    nothing is under way. And from any moment on, a clear that is carried out while its
    callbacks stay outside leaves a cache that is empty and passes its check. -/
theorem Trail.safe_misled (h : Trail Cache.engine (fun _ => True) ⟨cfg.build, rs⟩ ps m) :
    m.cache.chain.check = .ok () ∧
      (∀ p ∈ ps, ∀ reply, p.reply? = some reply → p.after.Serves p.op reply) ∧
      (∀ p ∈ ps, ∀ k value ttl refusal, p.op = .put k value ttl refusal → Cache.Spares k p.before p.after) ∧
      (∀ (c : Cache κ ν) id cause k i, c.index.get? k = some i → i ≠ id →
        Action.Meets (fun _ d => d.index.get? k = some i) (fun d => d.index.get? k = some i)
          (Cache.detach id cause c)) ∧
      ((∀ p ∈ ps, p.undisturbed = true) → m.cache.size.toNat = m.cache.entries.length ∧
        ∀ o, m.control = .finished o → m.cache.size ≤ m.cache.bound) ∧
      ∀ rs' reply s', (∀ r ∈ rs', ∀ op ∈ r.ops, op.outside = true) →
        Session.perform Cache.engine .clear ⟨m.cache, rs'⟩ = (.returned reply, s') →
        s'.cache.entries = [] ∧ s'.cache.size = 0 ∧ s'.cache.index = .empty ∧
          Cache.check s'.cache = .ok none s'.cache := by
  have hs := h.safe
  refine ⟨hs.intact.chain.check_eq, ?_, ?_, ?_, ?_, ?_⟩
  · exact fun p hp => (hs.honest p hp).serves
  · exact fun p hp => (hs.honest p hp).spares
  · intro c id cause k i hk hi
    exact Cache.detach_maps hk hi cause
  · intro hu
    obtain ⟨hsound, hcap⟩ := hs.fits hu
    refine ⟨hsound.size_eq, ?_⟩
    intro o ho
    rcases hcap with hb | ⟨t, ht, -⟩
    · exact hb
    · rw [ho] at ht
      cases ht
  · intro rs' reply s' hrs hr
    have hd := Session.perform_clear hrs hr
    exact ⟨List.map_eq_nil_iff.mpr hd.nodes, hd.size, hd.index, hd.check⟩

/-- Others map 1 to the node of 2, and 2 to no node while room is made for 1. -/
theorem Trail.safe_misled_swapped :
    let s : Session (Cache Nat Nat) Nat Nat :=
      ⟨Settings.build ⟨2, .zero, true, none, true, 0⟩, [⟨none, 1, [.index (.store 2 ⟨7, 7⟩), .get 2]⟩]⟩
    let looks : List (Reaction Nat Nat) := [⟨none, 2, [.index (.load 1), .elapsed]⟩]
    ∃ ps m, Trail Cache.engine (fun _ => True) s ps m ∧ m.control = .finished (.returned (.hit (some 11))) ∧
      m.cache.entries.map (fun e => (e.key, e.value)) = [(1, 11), (2, 20)] ∧ m.cache.index.get? 2 = some ⟨7, 7⟩ ∧
      m.cache.chain.check = .ok () ∧
      (∃ p ∈ ps, p.op = .get 1 ∧ p.after.Offers 1 11) ∧
      (∃ p ∈ ps, p.op = .put 1 11 none .abort ∧ Cache.Spares 1 p.before p.after) ∧
      m.cache.size.toNat = m.cache.entries.length ∧ m.cache.size ≤ m.cache.bound ∧
      (Session.perform Cache.engine .clear ⟨m.cache, looks⟩).2.cache.entries = [] := by
  intro s looks
  have hm : ∃ ps m, Trail Cache.engine (fun _ => True) s ps m ∧ m.control = .finished (.returned (.hit (some 11))) ∧
      m.cache.entries.map (fun e => (e.key, e.value)) = [(1, 11), (2, 20)] ∧ m.cache.index.get? 2 = some ⟨7, 7⟩ ∧
      (∀ p ∈ ps, p.undisturbed = true) ∧ (∃ p ∈ ps, p.op = .get 1 ∧ p.reply? = some (.hit (some 11))) ∧
      (∃ p ∈ ps, p.op = .put 1 11 none .abort) ∧
      (Session.perform Cache.engine .clear ⟨m.cache, looks⟩).1 = .returned .unit := by
    refine ⟨_, _, .start (o := .returned .unit) (.get 1) (.step (.step (.step (.step
      (.start (o := .returned (.index (.slot (some ⟨0, 0⟩)))) (.put 1 11 none .abort)
        (.start (.index (.store 1 ⟨1, 0⟩)) (.start (.put 2 20 none .abort) (.start (.put 1 10 none .abort)
          .idle rfl trivial) rfl trivial) rfl trivial) (by decide +kernel) trivial)))))
      (by decide +kernel) trivial, ?_⟩
    decide +kernel
  obtain ⟨ps, m, hm, hc, hentries, hindex, hu, ⟨p, hp, hget, hreply⟩, ⟨q, hq, hput⟩, hclear⟩ := hm
  obtain ⟨hcheck, hserves, hspares, -, hcounted, hcleared⟩ := hm.safe_misled
  obtain ⟨hsize, hbound⟩ := hcounted hu
  have hoffers : p.after.Offers 1 11 := by
    have := hserves p hp _ hreply
    rw [hget] at this
    exact this
  exact ⟨ps, m, hm, hc, hentries, hindex, hcheck, ⟨p, hp, hget, hoffers⟩, ⟨q, hq, hput, hspares q hq _ _ _ _ hput⟩,
    hsize, hbound _ hc, (hcleared _ _ _ (by decide) (Prod.ext hclear rfl)).1⟩

/-- With a failure the nodes need not be counted. Of two entries that a purge drops, the second has left when the
    index fails, and is still counted. -/
example :
    let s : Session (Cache Nat Nat) Nat Nat := ⟨Settings.build ⟨2, .ofParts 1 0, false, some .manual, true, 0⟩, []⟩
    let c := (s.performAll Cache.engine [.put 1 10 none .abort, .put 2 20 none .abort, .advance (.ofParts 2 0),
      .failIndex (some ⟨.compute, 1⟩), .purge]).2.cache
    c.entries = [] ∧ c.size = 1 := by
  decide +kernel

end Machine

end Recency

import Recency.Proofs.Session.Effects
import Recency.Proofs.Session.Forms
import Recency.Proofs.Session.Orderly
import Recency.Proofs.Session.Trail
/-
  Recency.Proofs.Session.HitOrInsert — a get-or-put is one hit or one insertion.

  Between the pieces of a get-or-put its callbacks may store, remove or let expire the very
  key it is about. So each piece looks again, and what the last piece finds decides: either
  a fresh entry is there, and another call has stored it, or there is none, and the piece
  puts one in. The pieces before the last only wait, and begin no stay.

  Which pieces of a trail are those of the call that carried out the latest is read off the
  depths (`ownPieces`): what is deeper was done by its callbacks, and what was answered or
  aborted at its own depth came before it. `Known` is what a trail tells of the cache, and
  every piece leads on from it.
-/

namespace Recency

variable {κ ν : Type}

/-! ## The pieces of a call -/

/-- What `op` has stored when it answers with `reply`. -/
def Op.stores? : Op κ ν → Reply κ ν → Option (κ × ν)
  | .put k value _ _, .unit | .put k value _ _, .ok => some (k, value)
  | .getOrPut k value _ _, .got _ false => some (k, value)
  | _, _ => none

section

variable {σ : Type}

namespace Piece

/-- Ends with the operation waiting. -/
def waits (p : Piece σ κ ν) : Bool :=
  match p.result with
  | .ok (.release _ _) _ => true
  | _ => false

def store? (p : Piece σ κ ν) : Option (κ × ν) := p.reply?.bind p.op.stores?

theorem waits_of_store {p : Piece σ κ ν} {kv : κ × ν} (h : p.store? = some kv) : p.waits = false := by
  obtain ⟨op, depth, before, result⟩ := p
  cases result with
  | error a s => rfl
  | ok progress s =>
    cases progress with
    | done reply => rfl
    | release victim task => cases h

end Piece

/-- Of the pieces so far, those of the call that is under way with `depth` calls waiting for it. -/
def ownPieces (depth : Nat) : List (Piece σ κ ν) → List (Piece σ κ ν)
  | [] => []
  | p :: ps =>
    if p.abort?.isSome then []
    else if depth < p.depth then ownPieces depth ps
    else if p.depth = depth ∧ p.waits = true then p :: ownPieces depth ps
    else []

variable {op : Op κ ν} {depth n : Nat} {s s' : σ} {p : Piece σ κ ν} {ps : List (Piece σ κ ν)}

theorem mem_of_own (h : p ∈ ownPieces n ps) : p ∈ ps ∧ p.waits = true := by
  induction ps with
  | nil => cases h
  | cons q ps ih =>
    unfold ownPieces at h
    split at h
    · cases h
    · split at h
      · exact (ih h).imp_left (List.mem_cons_of_mem q)
      · split at h
        · rename_i hq
          rcases List.mem_cons.mp h with rfl | h
          · exact ⟨List.mem_cons_self, hq.2⟩
          · exact (ih h).imp_left (List.mem_cons_of_mem q)
        · cases h

theorem own_aborted {a : Abort} : ownPieces n (⟨op, depth, s, .error a s'⟩ :: ps) = [] := rfl

/-- What a callback does is not done by the call that it is for. -/
theorem own_deeper {progress : Progress κ ν} (h : n < depth) :
    ownPieces n (⟨op, depth, s, .ok progress s'⟩ :: ps) = ownPieces n ps := by
  simp [ownPieces, Piece.abort?, h]

theorem own_waiting {victim : Option (Entry κ ν)} {task : Task κ ν} :
    ownPieces depth (⟨op, depth, s, .ok (.release victim task) s'⟩ :: ps) =
      ⟨op, depth, s, .ok (.release victim task) s'⟩ :: ownPieces depth ps := by
  simp [ownPieces, Piece.abort?, Piece.waits]

theorem own_answered {reply : Reply κ ν} (h : depth ≤ n) :
    ownPieces n (⟨op, depth, s, .ok (.done reply) s'⟩ :: ps) = [] := by
  have hn : ¬n < depth := Nat.not_lt.mpr h
  simp [ownPieces, Piece.abort?, Piece.waits, hn]

/-- There is no call yet above one that waits. -/
theorem own_above {progress : Progress κ ν} (h : depth < n) :
    ownPieces n (⟨op, depth, s, .ok progress s'⟩ :: ps) = [] := by
  have hn : ¬n < depth := Nat.lt_asymm h
  have hne : depth ≠ n := Nat.ne_of_lt h
  simp [ownPieces, Piece.abort?, hn, hne]

/-- Every call under way has carried out its own pieces, and nobody has carried out others. -/
structure Owned (ps : List (Piece σ κ ν)) (calls : List (Call κ ν)) : Prop where
  op_eq : ∀ above call below, calls = above ++ call :: below → ∀ q ∈ ownPieces below.length ps, q.op = call.op
  none_above : ∀ n, calls.length ≤ n → ownPieces n ps = []

theorem Owned.below {call : Call κ ν} {calls : List (Call κ ν)} (h : Owned ps (call :: calls)) :
    ∀ above call below, calls = above ++ call :: below → ∀ q ∈ ownPieces below.length ps, q.op = call.op := by
  intro above call' below he
  exact h.op_eq (call :: above) call' below (by rw [he, List.cons_append])

/-- A piece of `op` is one of those of `op`, and of the calls below it nothing changes. -/
theorem owned_lands {calls : List (Call κ ν)} {r : EStateM.Result Abort σ (Progress κ ν)}
    (hbelow : ∀ above call below, calls = above ++ call :: below → ∀ q ∈ ownPieces below.length ps, q.op = call.op)
    (hown : ∀ q ∈ ownPieces calls.length ps, q.op = op) :
    Engine.Lands (fun _ calls' => Owned (⟨op, calls.length, s, r⟩ :: ps) calls') op calls r := by
  have hlt : ∀ {above call below}, calls = above ++ call :: below → below.length < calls.length := by
    intro above call below he
    rw [he, List.length_append, List.length_cons]
    omega
  cases r with
  | error a s' =>
    refine ⟨fun above call below he => ?_, fun n _ => own_aborted⟩
    cases above <;> cases he
  | ok progress s' =>
    have hkept : ∀ above call below, calls = above ++ call :: below →
        ∀ q ∈ ownPieces below.length (⟨op, calls.length, s, .ok progress s'⟩ :: ps), q.op = call.op := by
      intro above call below he
      rw [own_deeper (hlt he)]
      exact hbelow above call below he
    cases progress with
    | done reply => exact ⟨hkept, fun n hn => own_answered hn⟩
    | release victim task =>
      refine ⟨fun above call below he => ?_, fun n hn => own_above hn⟩
      cases above with
      | nil =>
        cases he
        intro q hq
        rw [own_waiting] at hq
        rcases List.mem_cons.mp hq with rfl | hq
        · rfl
        · exact hown q hq
      | cons call' above =>
        cases he
        exact hkept above call below rfl

end

/-! ## What a piece adds -/

variable [DecidableEq κ]

namespace Plain

variable {p q : Plain κ ν} {op : Op κ ν} {k : κ} {value : ν} {ttl : Duration} {refusal : OnRefusal}

/-- The entries that come of a piece of `op` were there, but for what the operation stored if
    it answered. -/
def Adds (op : Op κ ν) (p : Plain κ ν) : Result κ ν → Prop
  | .ok (.done reply) q => ∀ e ∈ q.entries, e ∈ p.entries ∨ op.stores? reply = some (e.key, e.value)
  | .ok (.release _ _) q => q.entries ⊆ p.entries
  | .error _ q => q.entries ⊆ p.entries

omit [DecidableEq κ] in
theorem Adds.of_same {r : Result κ ν} {op' : Op κ ν} {p' : Plain κ ν} (h : Adds op p r)
    (hentries : p.entries = p'.entries) (hstores : op.stores? = op'.stores?) : Adds op' p' r := by
  unfold Adds at h ⊢
  rw [← hentries, ← hstores]
  exact h

omit [DecidableEq κ] in
theorem stores_of_deed {reply : Reply κ ν} {time : Instant} {gone : List (Entry κ ν × Cause)} {default : Duration}
    {st : Store κ ν} (h : Deed.store? default ⟨op, time, .returned reply, gone⟩ = some st) :
    op.stores? reply = some (st.key, st.value) := by
  unfold Deed.store? at h
  split at h <;> cases h
  all_goals
    rename_i he
    cases he
    rfl

/-- What an operation leaves was there when it began, or was stored by it. -/
theorem Turned.entries_from {o : Outcome κ ν} {still : Bool} (h : Turned still op p o q) {e : Entry κ ν}
    (he : e ∈ q.entries) : e ∈ p.entries ∨ ∃ reply, o = .returned reply ∧ op.stores? reply = some (e.key, e.value) := by
  obtain ⟨gone, front, rest, h⟩ := h
  have hrest : rest ⊆ p.entries := h.shed.sublist.subset
  rw [h.entries] at he
  cases front with
  | none => exact .inl (hrest he)
  | some e' =>
    rcases List.mem_cons.mp he with rfl | he
    · cases hst : Deed.store? p.defaultTtl ⟨op, p.now, o, gone⟩ with
      | none => exact .inl (hrest (h.found hst e rfl))
      | some st =>
        obtain ⟨e', he', hkey, hvalue, -⟩ := h.stored st hst
        cases he'
        cases o with
        | returned reply =>
          refine .inr ⟨reply, rfl, ?_⟩
          rw [hkey, hvalue]
          exact stores_of_deed hst
        | aborted a => cases op <;> cases hst
        | unfinished => cases op <;> cases hst
    · exact .inl (hrest (List.mem_filter.mp he).1)

theorem Proceeds.adds {r : Result κ ν} (h : Proceeds false op p r) : Adds op p r := by
  match r, h with
  | .error a q, h =>
    intro e he
    rcases h.entries_from he with he | ⟨reply, ho, -⟩
    · exact he
    · cases ho
  | .ok (.done reply) q, h =>
    intro e he
    rcases h.entries_from he with he | ⟨reply', ho, hst⟩
    · exact .inl he
    · cases ho
      exact .inr hst
  | .ok (.release victim task) q, h =>
    obtain ⟨gone, hs⟩ := h.since
    exact hs.shed.sublist.subset

theorem start_adds (look : Index.Op κ → Reply κ ν) (op : Op κ ν) (hn : (p.entries.map (·.key)).Nodup) :
    Adds op p (start look op p) :=
  (start_proceeds look op hn).adds

theorem notify_adds (victims : List (Entry κ ν)) (ending : Option Note) (reply : Reply κ ν) (p : Plain κ ν) :
    Adds op p (p.resume (.notify victims ending reply)) := by
  cases victims with
  | cons victim victims => exact List.Subset.refl _
  | nil =>
    cases ending with
    | none => exact fun e he => .inl he
    | some n => exact fun e he => .inl he

theorem resume_adds {begun : Plain κ ν} {task : Task κ ν} (ha : Awaits begun op task)
    (hn : (p.entries.map (·.key)).Nodup) : Adds op p (p.resume task) := by
  cases ha with
  | put k value ttl refusal =>
    -- the deadline was reckoned when the operation began, by another clock and for another default
    have hs :
        Since false (.put k value (some (ttl.getD begun.defaultTtl)) refusal) { p with clock := begun.clock } [] p :=
      ⟨rfl, .refl _, fun _ h => (nomatch h), fun h => (nomatch h), rfl⟩
    have hadds := (resumePut_proceeds hs hn).adds
    rw [Option.getD_some] at hadds
    refine hadds.of_same rfl ?_
    funext reply
    cases reply <;> rfl
  | getOrPut k value ttl refusal => exact (resumeGetOrPut_proceeds (.refl _ p) hn).adds
  | resize asked bound dropped => exact (resumeShrink_proceeds (.refl _ p) hn bound dropped).adds
  | get k => exact notify_adds _ _ _ p
  | peek k => exact notify_adds _ _ _ p
  | delete k => exact notify_adds _ _ _ p
  | purge victims ending n => exact notify_adds victims ending _ p
  | clear victims ending => exact notify_adds victims ending _ p

/-! ## What a get-or-put answers -/

/-- The last piece of a get-or-put found a fresh entry and put it in front, or it found none and
    began a stay. -/
theorem resumeGetOrPut_got {w : ν} {loaded : Bool}
    (h : p.resumeGetOrPut k value ttl refusal = .ok (.done (.got w loaded)) q) :
    ∃ e, q.entries = e :: p.others k ∧ e.key = k ∧ e.value = w ∧ e.expired q.now = false ∧
      (loaded = true ∧ e ∈ p.entries ∧ q.stays = p.stays ∨
        loaded = false ∧ w = value ∧ e.stay = p.stays ∧ q.stays = p.stays + 1) := by
  unfold resumeGetOrPut at h
  cases hk : p.find? k with
  | some e =>
    obtain ⟨he, rfl⟩ := find?_eq_some hk
    rw [hk] at h
    cases hx : e.expired p.now with
    | true =>
      simp only [hx, if_true] at h
      cases h
    | false =>
      simp only [hx, Bool.false_eq_true, if_false] at h
      cases h
      exact ⟨e, rfl, rfl, rfl, hx, .inl ⟨rfl, he, rfl⟩⟩
  | none =>
    have hfinish : p.finishGetOrPut k value ttl refusal = .ok (.done (.got w loaded)) q := by
      rw [hk] at h
      simp only at h
      split at h
      · exact h
      · split at h
        · exact h
        · cases h
    unfold finishGetOrPut at hfinish
    cases hq : (p.count .getMiss).enter k value (p.clock.deadline ttl) with
    | error a =>
      rw [hq] at hfinish
      cases refusal <;> cases hfinish
    | ok q' =>
      rw [hq] at hfinish
      cases hfinish
      obtain ⟨room, -, rfl⟩ := enter_ok hq
      refine ⟨⟨p.stays, k, value, p.clock.deadline ttl⟩, ?_, rfl, rfl, deadline_fresh .., .inr ⟨rfl, rfl, rfl, rfl⟩⟩
      exact congrArg (_ :: ·) (others_of_missing hk).symm

theorem good?_of_front {e : Entry κ ν} {rest : List (Entry κ ν)} (h : p.entries = e :: rest) (hk : e.key = k)
    (hx : e.expired p.now = false) : p.good? k = some e :=
  good?_eq_some.mpr ⟨by simp [find?, h, hk], hx⟩

/-- A read of the key of a fresh entry answers its value at once. -/
theorem read_of_good {e : Entry κ ν} (h : p.good? k = some e) (touch : Bool) :
    p.read k touch = .ok (.done (.hit (some e.value))) ((if touch then p.front e else p).count .getHit) := by
  obtain ⟨hk, hx⟩ := good?_eq_some.mp h
  simp only [read, hk, hx, Bool.false_eq_true, if_false]

end Plain

/-! ## What a trail tells -/

namespace Machine

variable {c : Cache κ ν} {op : Op κ ν} {depth : Nat} {calls calls' : List (Call κ ν)}
  {r : EStateM.Result Abort (Cache κ ν) (Progress κ ν)} {pr : Plain.Result κ ν} {p : Piece (Cache κ ν) κ ν}
  {ps : List (Piece (Cache κ ν) κ ν)}

/-- Every value was stored under its key by a call that has been answered. -/
def Backed (ps : List (Piece (Cache κ ν) κ ν)) (p : Plain κ ν) : Prop :=
  ∀ e ∈ p.entries, ∃ q ∈ ps, q.store? = some (e.key, e.value)

omit [DecidableEq κ] in
theorem Backed.of_subset {p q : Plain κ ν} (h : Backed ps p) (hsub : q.entries ⊆ p.entries)
    (new : Piece (Cache κ ν) κ ν) : Backed (new :: ps) q := by
  intro e he
  obtain ⟨x, hx, hstore⟩ := h e (hsub he)
  exact ⟨x, List.mem_cons_of_mem new hx, hstore⟩

theorem Backed.keeps (depth : Nat) (h : Backed ps c.view) (hr : Cache.Agrees r pr) (ha : Plain.Adds op c.view pr) :
    Engine.Keeps (fun d : Cache κ ν => Backed (⟨op, depth, c, r⟩ :: ps) d.view) r := by
  cases hr with
  | error a _ => exact h.of_subset ha _
  | @ok progress d _ =>
    cases progress with
    | release victim task => exact h.of_subset ha _
    | done reply =>
      intro e he
      rcases ha e he with he | hstore
      · exact h.of_subset (List.Subset.refl _) _ e he
      · exact ⟨_, List.mem_cons_self, hstore⟩

omit [DecidableEq κ] in
/-- A piece that waits has dropped what it hands out, and that is all. -/
theorem stays_of_waits {ready : Cache κ ν} {pending : List (Entry κ ν)} (hm : Cache.Moves ready pending r)
    (hready : ready.stays = c.stays) (hw : Piece.waits ⟨op, depth, c, r⟩ = true) :
    (Piece.after ⟨op, depth, c, r⟩).stays = c.stays := by
  cases hm with
  | releases h _ => exact h.stays.trans hready
  | _ => cases hw

/-- What the pieces of a quiet run tell of the cache and of the calls under way. -/
structure Known (ps : List (Piece (Cache κ ν) κ ν)) (c : Cache κ ν) (calls : List (Call κ ν)) : Prop where
  steady : c.Steady
  backed : Backed ps c.view
  owned : Owned ps calls
  patient : ∀ q ∈ ps, q.waits = true → q.after.stays = q.before.stays

theorem Known.lands {ready : Cache κ ν} {pending : List (Entry κ ν)} (h : Known ps c calls')
    (hr : Cache.Agrees r pr) (ha : Plain.Adds op c.view pr) (hm : Cache.Moves ready pending r)
    (hready : ready.stays = c.stays)
    (howned : Engine.Lands (fun _ all => Owned (⟨op, calls.length, c, r⟩ :: ps) all) op calls r) :
    Engine.Lands (Known (⟨op, calls.length, c, r⟩ :: ps)) op calls r := by
  have hpatient : ∀ q ∈ ⟨op, calls.length, c, r⟩ :: ps, q.waits = true → q.after.stays = q.before.stays := by
    intro q hq hw
    rcases List.mem_cons.mp hq with rfl | hq
    · exact stays_of_waits hm hready hw
    · exact h.patient q hq hw
  have hb := h.backed.keeps calls.length hr ha
  cases hr with
  | error a hs => exact ⟨hs, hb, howned, hpatient⟩
  | @ok progress d hs =>
    cases progress with
    | done reply => exact ⟨hs, hb, howned, hpatient⟩
    | release victim task => exact ⟨hs, hb, howned, hpatient⟩

theorem Known.record (h : Known ps c calls) (e : Event κ ν) : Known ps { c with journal := e :: c.journal } calls :=
  ⟨h.steady.record e, h.backed, h.owned, h.patient⟩

theorem Known.start (h : Known ps c calls) (hop : op.quiet = true) :
    Engine.Lands (Known (⟨op, calls.length, c, Cache.start op c⟩ :: ps)) op calls (Cache.start op c) := by
  refine h.lands (Cache.start_agrees h.steady hop) (Plain.start_adds _ op h.steady.keys_nodup)
    (Cache.start_moves h.steady.chain op) (Cache.primed_same c op).1 ?_
  refine owned_lands h.owned.op_eq ?_
  intro q hq
  rw [h.owned.none_above calls.length (Nat.le_refl _)] at hq
  cases hq

theorem Known.resume {begun : Plain κ ν} {task : Task κ ν} (h : Known ps c (⟨op, task⟩ :: calls))
    (ha : Plain.Awaits begun op task) :
    Engine.Lands (Known (⟨op, calls.length, c, Cache.resume task c⟩ :: ps)) op calls (Cache.resume task c) := by
  refine h.lands (Cache.resume_agrees h.steady task) (Plain.resume_adds ha h.steady.keys_nodup)
    (Cache.resume_moves h.steady.chain task) rfl ?_
  exact owned_lands h.owned.below (h.owned.op_eq [] ⟨op, task⟩ calls rfl)

theorem known_build (cfg : Settings) : Known [] (cfg.build : Cache κ ν) [] := by
  obtain ⟨hsteady, hview⟩ := Cache.build_steady (κ := κ) (ν := ν) cfg
  refine ⟨hsteady, ?_, ⟨?_, fun _ _ => rfl⟩, fun _ hq => (nomatch hq)⟩
  · intro e he
    rw [hview] at he
    cases he
  · intro above call below he
    cases above <;> cases he

variable {cfg : Settings} {rs : List (Reaction κ ν)} {m : Machine (Cache κ ν) κ ν}

/-- The latest piece of a trail and what was known when it was carried out. -/
theorem Trail.began_known (h : Trail Cache.engine (fun op => op.quiet = true) ⟨cfg.build, rs⟩ (p :: ps) m)
    (hrs : ∀ r ∈ rs, ∀ op ∈ r.ops, op.quiet = true) : Began (fun op => op.quiet = true) (Known ps) p :=
  h.began (J := Known) (fun _ e _ _ _ hk => hk.record e) (fun _ _ _ _ hop hk => hk.start hop)
    (fun _ _ _ _ _ _ ha hk => hk.resume ha) hrs (known_build cfg)

/-- Whichever piece of a get-or-put it is, it looks for the key as if the call began there. -/
theorem Began.agrees {k : κ} {value : ν} {ttl : Duration} {refusal : OnRefusal}
    (h : Began (fun op => op.quiet = true) (Known ps) p) (hop : p.op = .getOrPut k value ttl refusal) :
    p.before.Steady ∧ Backed ps p.before.view ∧
      Cache.Agrees p.result (p.before.view.resumeGetOrPut k value ttl refusal) ∧
      ∀ q ∈ ownPieces p.depth ps, q.op = p.op ∧ q.after.stays = q.before.stays := by
  have hpatient : ∀ {calls}, Known ps p.before calls → ∀ q ∈ ownPieces p.depth ps, q.after.stays = q.before.stays := by
    intro calls hk q hq
    obtain ⟨hmem, hw⟩ := mem_of_own hq
    exact hk.patient q hmem hw
  cases h with
  | start calls hdepth hquiet hresult hk =>
    refine ⟨hk.steady, hk.backed, ?_, fun q hq => ?_⟩
    · rw [hresult, hop]
      exact Cache.start_agrees hk.steady (hop ▸ hquiet)
    · rw [← hdepth, hk.owned.none_above calls.length (Nat.le_refl _)] at hq
      cases hq
  | @resume begun task calls hdepth ha hresult hk =>
    refine ⟨hk.steady, hk.backed, ?_, fun q hq => ⟨?_, hpatient hk q hq⟩⟩
    · rw [hop] at ha
      cases ha
      rw [hresult]
      exact Cache.resume_agrees hk.steady _
    · rw [← hdepth] at hq
      exact hk.owned.op_eq [] ⟨p.op, task⟩ calls rfl q hq

/-- A read of the key of a fresh entry hits, whatever callbacks there are. -/
theorem get_of_good {k : κ} {e : Entry κ ν} (hc : c.Steady) (hg : c.view.good? k = some e) (rs : List (Reaction κ ν)) :
    (Session.perform Cache.engine (.get k) ⟨c, rs⟩).1 = .returned (.hit (some e.value)) := by
  obtain ⟨q, hq⟩ : ∃ q, c.view.read k true = .ok (.done (.hit (some e.value))) q := ⟨_, Plain.read_of_good hg true⟩
  have hag : Cache.Agrees (Cache.start (.get k) c) (c.view.read k true) := Cache.start_agrees hc rfl
  rw [hq] at hag
  generalize hr : Cache.start (.get k) c = r at hag
  cases hag with
  | @ok _ d _ => exact congrArg Prod.fst (Session.perform_of_done hr)

/-- At no moment are there two entries of one key. When a get-or-put is answered, whatever its
    callbacks have done, the one entry of its key is in front with the value answered, and it is
    fresh, so a read finds it at once. If the answer is that it stored, this call began that
    stay, with its own value. Else none of its pieces began a stay, and the value is one that
    another call, answered by then, has stored under the key. -/
theorem Trail.get_or_put_once (h : Trail Cache.engine (fun op => op.quiet = true) ⟨cfg.build, rs⟩ ps m)
    (hrs : ∀ r ∈ rs, ∀ op ∈ r.ops, op.quiet = true) :
    (m.cache.entries.map (·.key)).Nodup ∧
      ∀ p older k value ttl refusal w loaded, ps = p :: older → p.op = .getOrPut k value ttl refusal →
        p.reply? = some (.got w loaded) →
        (∃ e rest, p.after.entries = e :: rest ∧ e.key = k ∧ e.value = w ∧ e.expired p.after.now = false ∧
          (∀ x ∈ rest, x.key ≠ k) ∧
          (loaded = false ↔
            ∃ q ∈ p :: ownPieces p.depth older, q.before.stays ≤ e.stay ∧ e.stay < q.after.stays)) ∧
        (∀ rs', (Session.perform Cache.engine (.get k) ⟨p.after, rs'⟩).1 = .returned (.hit (some w))) ∧
        (loaded = false → w = value) ∧
        (loaded = true →
          (∀ q ∈ p :: ownPieces p.depth older, q.after.stays = q.before.stays) ∧
            ∃ q ∈ older, q ∉ ownPieces p.depth older ∧ q.store? = some (k, w)) ∧
        ∀ q ∈ ownPieces p.depth older, q.op = p.op := by
  refine ⟨(h.reach.steady hrs).keys_nodup, ?_⟩
  intro p older k value ttl refusal w loaded hps hop hreply
  subst hps
  obtain ⟨hbefore, hbacked, hag, hown⟩ := (h.began_known hrs).agrees hop
  obtain ⟨d, hresult⟩ : ∃ d, p.result = .ok (.done (.got w loaded)) d := by
    unfold Piece.reply? at hreply
    split at hreply
    · rename_i hr
      cases hreply
      exact ⟨_, hr⟩
    · cases hreply
  have hafter : p.after = d := by rw [Piece.after, hresult]
  rw [hresult] at hag
  have hd : d.Steady := hag.keeps
  obtain ⟨e, hentries, hkey, hvalue, hfresh, hhow⟩ := Plain.resumeGetOrPut_got hag.seen_eq.symm
  have hothers : ∀ x ∈ p.before.view.others k, x.key ≠ k := fun x hx => of_decide_eq_true (List.mem_filter.mp hx).2
  have hread : ∀ rs', (Session.perform Cache.engine (.get k) ⟨d, rs'⟩).1 = .returned (.hit (some w)) := by
    intro rs'
    rw [get_of_good hd (Plain.good?_of_front hentries hkey hfresh) rs', hvalue]
  rw [hafter]
  rcases hhow with ⟨rfl, he, hstays⟩ | ⟨rfl, hw, hstay, hstays⟩
  · have hkept : ∀ q ∈ p :: ownPieces p.depth older, q.after.stays = q.before.stays := by
      intro q hq
      rcases List.mem_cons.mp hq with rfl | hq
      · rw [hafter]
        exact hstays
      · exact (hown q hq).2
    obtain ⟨q, hq, hstore⟩ := hbacked e he
    rw [hkey, hvalue] at hstore
    have hother : q ∉ ownPieces p.depth older := by
      intro hmem
      have hw := (mem_of_own hmem).2
      rw [Piece.waits_of_store hstore] at hw
      cases hw
    refine ⟨⟨e, _, hentries, hkey, hvalue, hfresh, hothers, nofun, ?_⟩, hread, nofun,
      fun _ => ⟨hkept, q, hq, hother, hstore⟩, fun q hq => (hown q hq).1⟩
    rintro ⟨q, hq, hle, hlt⟩
    have := hkept q hq
    omega
  · have hbegan : p.before.stays ≤ e.stay ∧ e.stay < p.after.stays := by
      have hbefore : e.stay = p.before.stays := hstay
      have hafter' : p.after.stays = p.before.stays + 1 := by
        rw [hafter]
        exact hstays
      omega
    exact ⟨⟨e, _, hentries, hkey, hvalue, hfresh, hothers, fun _ => ⟨p, List.mem_cons_self, hbegan⟩, fun _ => rfl⟩,
      hread, fun _ => hw, nofun, fun q hq => (hown q hq).1⟩

/-- While a get-or-put waits, its callback stores the key with a short time to live, lets it
    expire, and then another get-or-put reaps that entry and stores its own value. -/
theorem Trail.get_or_put_once_raced :
    let s : Session (Cache Nat Nat) Nat Nat :=
      ⟨Settings.build ⟨1, .zero, true, none, false, 0⟩,
        [⟨none, 1, [.put 2 98 (some ⟨1⟩) .report, .advance ⟨5⟩, .getOrPut 2 99 .zero .report]⟩]⟩
    ∃ p older m, Trail Cache.engine (fun op => op.quiet = true) s (p :: older) m ∧
      p.op = .getOrPut 2 20 .zero .abort ∧ p.reply? = some (.got 99 true) ∧ (m.cache.entries.map (·.key)).Nodup ∧
      (∃ e rest, p.after.entries = e :: rest ∧ e.key = 2 ∧ e.value = 99 ∧ e.expired p.after.now = false ∧
        ∀ x ∈ rest, x.key ≠ 2) ∧
      (∀ rs', (Session.perform Cache.engine (.get 2) ⟨p.after, rs'⟩).1 = .returned (.hit (some 99))) ∧
      (∀ q ∈ p :: ownPieces p.depth older, q.after.stays = q.before.stays) ∧
      ∃ q ∈ older, q ∉ ownPieces p.depth older ∧ q.store? = some (2, 99) := by
  intro s
  have hrs : ∀ r ∈ s.reactions, ∀ op ∈ r.ops, op.quiet = true := by decide
  have hm : ∃ ps m, Trail Cache.engine (fun op => op.quiet = true) s ps m ∧
      ps.head?.map (fun p => (p.op, p.reply?)) = some (.getOrPut 2 20 .zero .abort, some (.got 99 true)) := by
    refine ⟨_, _, .step (.step (.step (.step (.step (.step (.step (.start (.getOrPut 2 20 .zero .abort)
      (.start (.put 1 10 none .abort) .idle rfl rfl) rfl rfl))))))), ?_⟩
    decide +kernel
  obtain ⟨ps, m, hm, hlast⟩ := hm
  cases ps with
  | nil => cases hlast
  | cons p older =>
    obtain ⟨hop, hreply⟩ := Prod.mk.inj (Option.some.inj hlast)
    obtain ⟨hnodup, honce⟩ := hm.get_or_put_once hrs
    obtain ⟨⟨e, rest, hentries, hkey, hvalue, hfresh, hothers, -⟩, hread, -, hloaded, -⟩ :=
      honce p older 2 20 .zero .abort 99 true rfl hop hreply
    obtain ⟨hkept, hstored⟩ := hloaded rfl
    exact ⟨p, older, m, hm, hop, hreply, hnodup, ⟨e, rest, hentries, hkey, hvalue, hfresh, hothers⟩, hread, hkept,
      hstored⟩

end Machine

end Recency

import Recency.Proofs.Session.History
/-
  Recency.Proofs.Session.Touches — the order of the entries is the order of their last touch.

  An operation touches a key when it inserts it, overwrites it or hits it, and the last
  touch of a key is told by the history alone. Front to back, the entries are in the order
  of their last touch, the latest first (`Recent`): a turn drops entries, which disturbs no
  order, and then puts at most one in front, which is the one that it touched
  (`Turn.recent`).

  What has to make room is at the back. So it was touched before every entry that stays
  (`Shed.outlived`), and a full cache gives up its entries in the order in which they were
  touched (`deeds_full`).
-/

namespace Recency

variable {κ ν : Type} [DecidableEq κ]

/-! ## Last touches -/

/-- Where in a history `k` was touched last, counted from one; zero if it never was. -/
def lastTouch (k : κ) (history : List (Deed κ ν)) : Nat :=
  history.length - history.reverse.findIdx (·.touched? = some k)

theorem lastTouch_le (k : κ) (history : List (Deed κ ν)) : lastTouch k history ≤ history.length := Nat.sub_le ..

theorem lastTouch_concat (k : κ) (history : List (Deed κ ν)) (d : Deed κ ν) :
    lastTouch k (history ++ [d]) = if d.touched? = some k then history.length + 1 else lastTouch k history := by
  simp only [lastTouch, List.length_append, List.length_singleton, List.reverse_append, List.reverse_singleton,
    List.singleton_append, List.findIdx_cons]
  by_cases h : d.touched? = some k
  · simp [h]
  · simp [h]

/-- Front to back, from the entry touched last to the one touched longest ago. -/
structure Recent (history : List (Deed κ ν)) (l : List (Entry κ ν)) : Prop where
  order : l.Pairwise fun a b => lastTouch b.key history < lastTouch a.key history
  touched : ∀ e ∈ l, 0 < lastTouch e.key history

variable {history : List (Deed κ ν)} {l rest : List (Entry κ ν)} {gone : List (Entry κ ν × Cause)}

theorem Recent.sublist (h : Recent history l) (hs : rest.Sublist l) : Recent history rest :=
  ⟨h.order.sublist hs, fun e he => h.touched e (hs.subset he)⟩

/-- What had to make room was touched before all that have stayed. -/
theorem Shed.outlived (h : Shed gone l rest) (hr : Recent history l) {g : Entry κ ν × Cause} (hg : g ∈ gone)
    (hc : g.2 = .capacity) {x : Entry κ ν} (hx : x ∈ rest) : lastTouch g.1.key history < lastTouch x.key history :=
  List.pairwise_iff_forall_sublist.mp hr.order (h.behind g hg hc x hx)

namespace Plain

variable {p q : Plain κ ν} {d : Deed κ ν} {front : Option (Entry κ ν)} {still : Bool}

theorem Turn.recent (h : Turn still p d front rest q) (hr : Recent history p.entries) :
    Recent (history ++ [d]) q.entries := by
  have hrest := hr.sublist h.shed.sublist
  rw [h.entries]
  cases front with
  | none =>
    have hsame : ∀ k, lastTouch k (history ++ [d]) = lastTouch k history := by
      intro k
      rw [lastTouch_concat, h.touched]
      rfl
    refine ⟨hrest.order.imp ?_, ?_⟩
    · intro a b hab
      rwa [hsame, hsame]
    · intro e he
      rw [hsame]
      exact hrest.touched e he
  | some e =>
    have hfront : lastTouch e.key (history ++ [d]) = history.length + 1 := by
      rw [lastTouch_concat, h.touched]
      exact if_pos rfl
    have hsame : ∀ x ∈ rest.filter (·.key ≠ e.key), lastTouch x.key (history ++ [d]) = lastTouch x.key history := by
      intro x hx
      have hne : x.key ≠ e.key := by simpa using (List.mem_filter.mp hx).2
      rw [lastTouch_concat, h.touched]
      exact if_neg fun he => hne (Option.some.inj he).symm
    have hothers := hrest.sublist (List.filter_sublist (p := fun x => decide (x.key ≠ e.key)))
    refine ⟨List.pairwise_cons.mpr ⟨?_, ?_⟩, ?_⟩
    · intro x hx
      have := lastTouch_le x.key history
      rw [hsame x hx, hfront]
      omega
    · refine hothers.order.imp_of_mem ?_
      intro a b ha hb hab
      rwa [hsame a ha, hsame b hb]
    · intro x hx
      rcases List.mem_cons.mp hx with rfl | hx
      · omega
      · rw [hsame x hx]
        exact hothers.touched x hx

/-- What had to make room was touched before all that are there when the deed is done. -/
theorem Turn.outlived (h : Turn still p d front rest q) (hr : Recent history p.entries) {g : Entry κ ν × Cause}
    (hg : g ∈ d.gone) (hc : g.2 = .capacity) {x : Entry κ ν} (hx : x ∈ q.entries) :
    lastTouch g.1.key history < lastTouch x.key (history ++ [d]) := by
  rw [lastTouch_concat]
  by_cases ht : d.touched? = some x.key
  · have := lastTouch_le g.1.key history
    rw [if_pos ht]
    omega
  · rw [if_neg ht]
    refine h.shed.outlived hr hg hc ?_
    rw [h.entries] at hx
    rw [h.touched] at ht
    cases front with
    | none => exact hx
    | some e =>
      rcases List.mem_cons.mp hx with rfl | hx
      · exact absurd rfl ht
      · exact (List.mem_filter.mp hx).1

end Plain

namespace Session

variable {still : Bool} {s : Session (Cache κ ν) κ ν}

theorem performAll_recent {ops : List (Op κ ν)} (hops : ∀ op ∈ ops, op.quiet = true) (hs : s.Aloof still)
    (h : Recent history s.cache.entries) :
    Recent (history ++ deeds ops s) (performAll Cache.engine ops s).2.cache.entries :=
  performAll_keeps (I := fun history p => Recent history p.entries) (fun _ _ _ _ _ _ _ ht h => ht.recent h) hops hs h

end Session

/-! ## Hits -/

omit [DecidableEq κ] in
/-- The key that was found good and read. -/
def Deed.hit? : Deed κ ν → Option κ
  | ⟨.get key, _, .returned (.hit (some _)), _⟩ => some key
  | ⟨.getOrPut key _ _ _, _, .returned (.got _ true), _⟩ => some key
  | _ => none

namespace Plain

variable {p q : Plain κ ν} {k : κ}

/-- The entry of `k` has come to the front, and that is all. -/
structure Hit (k : κ) (p q : Plain κ ν) : Prop where
  entries : ∃ e ∈ p.entries, e.key = k ∧ q.entries = e :: p.entries.filter (·.key ≠ k)
  bound : q.bound = p.bound

/-- If `op`, begun at `p`, has hit a key, it has done no more than that. -/
def OnlyHit (op : Op κ ν) (p : Plain κ ν) (o : Outcome κ ν) (q : Plain κ ν) : Prop :=
  ∀ gone k, Deed.hit? ⟨op, p.now, o, gone⟩ = some k → Hit k p q

theorem get_hits (k : κ) (p : Plain κ ν) :
    Engine.Leads (fun task _ => task = .notify [] none (.hit none)) (OnlyHit (.get k) p) (p.read k true) := by
  unfold read
  cases hf : p.find? k with
  | none =>
    intro gone k' hk
    cases hk
  | some e =>
    obtain ⟨hm, rfl⟩ := find?_eq_some hf
    simp only
    split
    · rfl
    · intro gone k' hk
      cases hk
      exact ⟨⟨e, hm, rfl, rfl⟩, rfl⟩

/-- Once it has dropped an entry, a `getOrPut` does not find its key, and so it never hits. -/
def Missing (task : Task κ ν) (k : κ) (task' : Task κ ν) (q : Plain κ ν) : Prop := task' = task ∧ q.find? k = none

theorem getOrPut_misses (hq : q.find? k = none) (value : ν) (ttl : Duration) (refusal : OnRefusal) :
    Engine.Leads (Missing (.getOrPut k value ttl refusal) k) (OnlyHit (.getOrPut k value ttl refusal) p)
      (q.resumeGetOrPut k value ttl refusal) := by
  have hfinish : Engine.Leads (Missing (.getOrPut k value ttl refusal) k) (OnlyHit (.getOrPut k value ttl refusal) p)
      (q.finishGetOrPut k value ttl refusal) := by
    unfold finishGetOrPut
    cases (q.count .getMiss).enter k value (q.clock.deadline ttl) with
    | error e => cases refusal <;> exact fun _ _ hk => nomatch hk
    | ok q' => exact fun _ _ hk => nomatch hk
  unfold resumeGetOrPut
  rw [hq]
  simp only
  split
  · exact hfinish
  · cases he : q.evict? with
    | none => exact hfinish
    | some r =>
      obtain ⟨e, -, rfl⟩ := Option.map_eq_some_iff.mp he
      refine ⟨rfl, List.find?_eq_none.mpr fun x hx => ?_⟩
      exact List.find?_eq_none.mp hq x ((List.dropLast_sublist _).subset hx)

theorem getOrPut_hits (k : κ) (value : ν) (ttl : Duration) (refusal : OnRefusal) (p : Plain κ ν) :
    Engine.Leads (Missing (.getOrPut k value ttl refusal) k) (OnlyHit (.getOrPut k value ttl refusal) p)
      (p.resumeGetOrPut k value ttl refusal) := by
  cases hf : p.find? k with
  | none => exact getOrPut_misses hf value ttl refusal
  | some e =>
    obtain ⟨hm, rfl⟩ := find?_eq_some hf
    unfold resumeGetOrPut
    rw [hf]
    simp only
    split
    · refine ⟨rfl, List.find?_eq_none.mpr fun x hx => ?_⟩
      simpa using (List.mem_filter.mp hx).2
    · intro gone k' hk
      cases hk
      exact ⟨⟨e, hm, rfl, rfl⟩, rfl⟩

end Plain

namespace Session

variable {still : Bool} {s : Session (Cache κ ν) κ ν}

theorem perform_hit (hs : s.Aloof still) {op : Op κ ν} {k : κ} (hhit : (s.deed op).hit? = some k) :
    (s.perform Cache.engine op).2.Aloof still ∧
      Plain.Hit k s.cache.view (s.perform Cache.engine op).2.cache.view := by
  cases op with
  | get key =>
    obtain ⟨hs', hh⟩ := perform_carries hs (.get key) rfl (Plain.answers_carries fun _ _ _ hk => nomatch hk)
      (Plain.get_hits key s.cache.view)
    exact ⟨hs', hh _ k hhit⟩
  | getOrPut key value ttl refusal =>
    have hcarries : Plain.Carries still (Plain.Missing (.getOrPut key value ttl refusal) key)
        (Plain.OnlyHit (.getOrPut key value ttl refusal) s.cache.view) := by
      refine ⟨fun task p q hb ht => ⟨ht.1, ?_⟩, fun task p _ ht => ?_⟩
      · exact (congrArg (List.find? _) hb.entries).trans ht.2
      · obtain ⟨rfl, hmiss⟩ := ht
        exact Plain.getOrPut_misses hmiss value ttl refusal
    obtain ⟨hs', hh⟩ := perform_carries hs (.getOrPut key value ttl refusal) rfl hcarries
      (Plain.getOrPut_hits key value ttl refusal s.cache.view)
    exact ⟨hs', hh _ k hhit⟩
  | _ => cases hhit

end Session

/-! ## Full caches -/

omit [DecidableEq κ] in
/-- The key that is to be there afterwards. -/
def Op.inserts? : Op κ ν → Option κ
  | .put key _ _ _ | .getOrPut key _ _ _ => some key
  | _ => none

omit [DecidableEq κ] in
theorem Op.quiet_of_inserts {op : Op κ ν} {k : κ} (h : op.inserts? = some k) : op.quiet = true := by
  cases op with
  | put => rfl
  | getOrPut => rfl
  | _ => cases h

namespace Plain

variable {p q : Plain κ ν} {op : Op κ ν} {k : κ} {before : List (Entry κ ν)} {victim : Entry κ ν}

/-- The last entry has made room for another. -/
structure MadeRoom (p : Plain κ ν) (before : List (Entry κ ν)) (victim : Entry κ ν) (q : Plain κ ν) : Prop where
  entries : q.entries = before
  bound : q.bound = p.bound
  places : before.length < q.room.places
  left : leftIn q.journal = (victim, .capacity) :: leftIn p.journal

/-- One entry has taken the place of the last. -/
structure Replaced (k : κ) (p : Plain κ ν) (before : List (Entry κ ν)) (victim : Entry κ ν) (q : Plain κ ν) :
    Prop where
  entries : ∃ e : Entry κ ν, e.key = k ∧ q.entries = e :: before
  bound : q.bound = p.bound
  left : leftIn q.journal = (victim, .capacity) :: leftIn p.journal

def Inserted (op : Op κ ν) (k : κ) (p : Plain κ ν) (before : List (Entry κ ν)) (victim : Entry κ ν) (o : Outcome κ ν)
    (q : Plain κ ν) : Prop :=
  (∀ gone, Deed.touched? ⟨op, p.now, o, gone⟩ = some k) ∧ Replaced k p before victim q

omit [DecidableEq κ] in
theorem MadeRoom.enter (h : MadeRoom p before victim q) (k : κ) (value : ν) (deadline : Option Instant) :
    ∃ q', q.enter k value deadline = .ok q' ∧ Replaced k p before victim q' := by
  have htake : q.room.take q.entries.length = .ok q.room := by
    rw [Room.take, h.entries, if_pos h.places]
  refine ⟨_, congrArg (Except.map _) htake, ⟨⟨q.stays, k, value, deadline⟩, rfl, ?_⟩, h.bound, h.left⟩
  exact congrArg (_ :: ·) h.entries

omit [DecidableEq κ] in
theorem evict?_full (hlast : p.entries = before ++ [victim]) (hplaces : p.entries.length ≤ p.room.places) :
    ∃ q, p.evict? = some (victim, q) ∧ MadeRoom p before victim q := by
  have hl : p.entries.getLast? = some victim := by rw [hlast, List.getLast?_concat]
  unfold evict?
  rw [hl]
  refine ⟨_, rfl, ?_, rfl, ?_, rfl⟩
  · exact hlast ▸ List.dropLast_concat
  · rw [hlast, List.length_append, List.length_singleton] at hplaces
    exact hplaces

/-- What an insertion waits in, once the last entry has made room. -/
def Inserting (op : Op κ ν) (p : Plain κ ν) (before : List (Entry κ ν)) (victim : Entry κ ν) (task : Task κ ν)
    (q : Plain κ ν) : Prop := Awaits p op task ∧ MadeRoom p before victim q

theorem resume_inserts (hop : op.inserts? = some k) (hk : ∀ x ∈ before, x.key ≠ k)
    (hroom : before.length < p.bound.toNat) {task : Task κ ν} (h : Inserting op p before victim task q) :
    Engine.Leads (Inserting op p before victim) (Inserted op k p before victim) (q.resume task) := by
  obtain ⟨ha, hq⟩ := h
  have hmiss : q.find? k = none := by
    rw [find?, hq.entries, List.find?_eq_none]
    simpa using hk
  have hhas : q.hasRoom = true := by
    rw [hasRoom, hq.entries, hq.bound]
    exact decide_eq_true hroom
  cases ha with
  | put key value ttl refusal =>
    cases hop
    obtain ⟨q', he, hr⟩ := hq.enter k value (p.clock.deadline (ttl.getD p.defaultTtl))
    simp only [resume, resumePut, hmiss, hhas, if_true, finishPut, he]
    exact ⟨fun _ => by cases refusal <;> rfl, hr⟩
  | getOrPut key value ttl refusal =>
    cases hop
    obtain ⟨q', he, hr⟩ := MadeRoom.enter (q := q.count .getMiss) ⟨hq.entries, hq.bound, hq.places, hq.left⟩ k value
      (q.clock.deadline ttl)
    simp only [resume, resumeGetOrPut, hmiss, hhas, if_true, finishGetOrPut, he]
    exact ⟨fun _ => rfl, hr⟩
  | _ => cases hop

theorem start_inserts (look : Index.Op κ → Reply κ ν) (hop : op.inserts? = some k)
    (hlast : p.entries = before ++ [victim]) (hplaces : p.entries.length ≤ p.room.places)
    (hfull : p.entries.length = p.bound.toNat)
    (hk : ∀ x ∈ p.entries, x.key ≠ k) :
    Engine.Leads (Inserting op p before victim) (Inserted op k p before victim) (start look op p) := by
  obtain ⟨q, he, hq⟩ := evict?_full hlast hplaces
  have hmiss : p.find? k = none := by
    rw [find?, List.find?_eq_none]
    simpa using hk
  have hhas : p.hasRoom = false := by
    rw [hasRoom, hfull]
    exact decide_eq_false (Nat.lt_irrefl _)
  cases op with
  | put key value ttl refusal =>
    cases hop
    simp only [start, resumePut, hmiss, hhas, Bool.false_eq_true, if_false, he]
    exact ⟨.put .., hq⟩
  | getOrPut key value ttl refusal =>
    cases hop
    simp only [start, resumeGetOrPut, hmiss, hhas, Bool.false_eq_true, if_false, he]
    exact ⟨.getOrPut .., hq⟩
  | _ => cases hop

end Plain

namespace Session

variable {still : Bool} {s : Session (Cache κ ν) κ ν}

/-- An insertion into a full cache succeeds, at the cost of the last entry. -/
theorem perform_full (hs : s.Aloof still) {op : Op κ ν} {k : κ} (hop : op.inserts? = some k)
    {before : List (Entry κ ν)} {victim : Entry κ ν} (hlast : s.cache.entries = before ++ [victim])
    (hfull : s.cache.entries.length = s.cache.bound.toNat) (hk : ∀ x ∈ s.cache.entries, x.key ≠ k) :
    (s.perform Cache.engine op).2.Aloof still ∧ (s.deed op).touched? = some k ∧
      (s.deed op).gone = [(victim, .capacity)] ∧
      Plain.Replaced k s.cache.view before victim (s.perform Cache.engine op).2.cache.view := by
  have hplaces : s.cache.entries.length ≤ s.cache.chain.arena.slots.size := by
    have := hs.steady.chain.length_le.1
    rwa [Cache.entries, Chain.values, List.length_map]
  have hbefore : before.length < s.cache.bound.toNat := by
    rw [← hfull, hlast, List.length_append, List.length_singleton]
    omega
  have hcarries : Plain.Carries still (Plain.Inserting op s.cache.view before victim)
      (Plain.Inserted op k s.cache.view before victim) := by
    refine ⟨fun task p q hb h => ⟨h.1, ?_⟩, fun task p _ h => ?_⟩
    · exact ⟨hb.entries.trans h.2.entries, hb.bound.trans h.2.bound, hb.places ▸ h.2.places, hb.left.trans h.2.left⟩
    · exact Plain.resume_inserts hop (fun x hx => hk x (by simp [hlast, hx])) hbefore h
  obtain ⟨hs', htouched, hr⟩ :=
    perform_carries hs op (Op.quiet_of_inserts hop) hcarries
      (Plain.start_inserts s.cache.glance hop hlast hplaces hfull hk)
  exact ⟨hs', htouched _, Cache.goneSince_eq hr.left, hr⟩

/-- Into a full cache, as many keys as it holds that are not in it: each is inserted, and
    costs the entry that is last by then. -/
theorem deeds_full {ops : List (Op κ ν)} {ks : List κ} (hops : ops.map Op.inserts? = ks.map some) (hs : s.Aloof still)
    (hfull : s.cache.entries.length = s.cache.bound.toNat) (hnodup : ks.Nodup)
    (hnew : ∀ k ∈ ks, ∀ x ∈ s.cache.entries, x.key ≠ k) (hlen : ks.length ≤ s.cache.entries.length) :
    (deeds ops s).map Deed.touched? = ks.map some ∧
      (deeds ops s).map (·.gone) = (s.cache.entries.reverse.take ks.length).map fun e => [(e, .capacity)] := by
  induction ks generalizing ops s with
  | nil =>
    rw [List.map_nil, List.map_eq_nil_iff] at hops
    subst hops
    exact ⟨rfl, rfl⟩
  | cons k ks ih =>
    cases ops with
    | nil => cases hops
    | cons op ops =>
      obtain ⟨hop, hops⟩ := List.cons.inj hops
      obtain ⟨hk, hnodup⟩ := List.nodup_cons.mp hnodup
      obtain ⟨before, victim, hlast⟩ : ∃ before victim, s.cache.entries = before ++ [victim] := by
        rcases List.eq_nil_or_concat s.cache.entries with hnil | ⟨before, victim, hl⟩
        · rw [hnil] at hlen
          cases hlen
        · exact ⟨before, victim, hl.trans (List.concat_eq_append ..)⟩
      obtain ⟨hs', htouched, hgone, hr⟩ := perform_full hs hop hlast hfull (hnew k (by simp))
      obtain ⟨e, he, hent⟩ := hr.entries
      have hent : (s.perform Cache.engine op).2.cache.entries = e :: before := hent
      have hbound : (s.perform Cache.engine op).2.cache.bound = s.cache.bound := hr.bound
      have hsame : (s.perform Cache.engine op).2.cache.entries.length = s.cache.entries.length := by
        rw [hent, hlast, List.length_append, List.length_singleton, List.length_cons]
      have hnew' : ∀ k' ∈ ks, ∀ x ∈ (s.perform Cache.engine op).2.cache.entries, x.key ≠ k' := by
        intro k' hk' x hx
        rw [hent] at hx
        rcases List.mem_cons.mp hx with rfl | hx
        · rw [he]
          rintro rfl
          exact hk hk'
        · exact hnew k' (by simp [hk']) x (by simp [hlast, hx])
      have hlen' : ks.length ≤ before.reverse.length := by
        rw [hlast, List.length_append, List.length_singleton, List.length_cons] at hlen
        rw [List.length_reverse]
        omega
      obtain ⟨ihtouched, ihgone⟩ :=
        ih hops hs' (by rw [hsame, hbound, hfull]) hnodup hnew' (by rw [hsame]; exact Nat.le_of_succ_le hlen)
      constructor
      · rw [deeds, List.map_cons, List.map_cons, htouched, ihtouched]
      · -- the entry just inserted is not yet due to make room
        rw [hent, List.reverse_cons, List.take_append_of_le_length hlen'] at ihgone
        rw [deeds, List.map_cons, hgone, ihgone, hlast, List.reverse_append, List.reverse_singleton,
          List.singleton_append, List.length_cons, List.take_succ_cons, List.map_cons]

theorem build_recent (cfg : Settings) : Recent ([] : List (Deed κ ν)) (cfg.build : Cache κ ν).entries := by
  have hempty : (cfg.build : Cache κ ν).entries = [] := congrArg Plain.entries (Cache.build_steady cfg).2
  rw [hempty]
  exact ⟨.nil, fun e he => nomatch he⟩

/-- The entries are in the order of their last touch after every history, and at every moment
    of the operation that comes next. What has to make room in an operation was touched
    before all that are there when it has left, and before all that are there in the end.

    Of a full cache, the entry that is hit goes last: as many new keys as there are entries
    cost first the others, from the one touched longest ago, and then that one. -/
theorem recent_throughout (cfg : Settings) (rs : List (Reaction κ ν)) (ops : List (Op κ ν))
    (hrs : ∀ r ∈ rs, ∀ op ∈ r.ops, op.aside false = true) (hops : ∀ op ∈ ops, op.quiet = true) :
    let s := (performAll Cache.engine ops ⟨cfg.build, rs⟩).2
    let history := deeds ops ⟨cfg.build, rs⟩
    Recent history s.cache.entries ∧
      (∀ op : Op κ ν, op.quiet = true →
        let s' := (s.perform Cache.engine op).2
        (∀ n, let m := (Machine.start Cache.engine op s).run Cache.engine n
          (∀ o, m.control ≠ .finished o) → Recent history m.cache.entries ∧
            ∀ g ∈ s.cache.goneSince m.cache, g.2 = .capacity → ∀ x ∈ m.cache.entries,
              lastTouch g.1.key history < lastTouch x.key history) ∧
          Recent (history ++ [s.deed op]) s'.cache.entries ∧
          ∀ g ∈ (s.deed op).gone, g.2 = .capacity → ∀ x ∈ s'.cache.entries,
            lastTouch g.1.key history < lastTouch x.key (history ++ [s.deed op])) ∧
      ∀ (hit : Op κ ν) (k : κ), s.cache.entries.length = s.cache.bound.toNat → (s.deed hit).hit? = some k →
        let s' := (s.perform Cache.engine hit).2
        ∃ e others, s'.cache.entries = e :: others ∧ e.key = k ∧
          ∀ (inserts : List (Op κ ν)) (ks : List κ), inserts.map Op.inserts? = ks.map some → ks.Nodup →
            (∀ k' ∈ ks, ∀ x ∈ s'.cache.entries, x.key ≠ k') → ks.length ≤ s.cache.bound.toNat →
              (deeds inserts s').map Deed.touched? = ks.map some ∧
                (deeds inserts s').map (·.gone) =
                  ((others.reverse ++ [e]).take ks.length).map fun x => [(x, .capacity)] := by
  intro s history
  have hbuilt := build_aloof cfg hrs
  have hs : s.Aloof false := performAll_aloof hops hbuilt
  have hrecent : Recent history s.cache.entries := performAll_recent hops hbuilt (build_recent cfg)
  refine ⟨hrecent, ?_, ?_⟩
  · intro op hop s'
    obtain ⟨-, front, rest, ht⟩ := perform_turn hs hop
    refine ⟨?_, ht.recent hrecent, fun g hg hc x hx => ht.outlived hrecent hg hc hx⟩
    intro n m hm
    obtain ⟨gone, hsince⟩ := run_midway hs hop n hm
    refine ⟨hrecent.sublist hsince.shed.sublist, ?_⟩
    intro g hg hc x hx
    rw [Cache.goneSince_eq hsince.left] at hg
    exact hsince.shed.outlived hrecent hg hc hx
  · intro hit k hfull hhit s'
    obtain ⟨hs', hh⟩ := perform_hit hs hhit
    obtain ⟨e, he, rfl, hent⟩ := hh.entries
    have hbound : s'.cache.bound = s.cache.bound := hh.bound
    have hlen : s'.cache.entries.length = s.cache.entries.length :=
      (congrArg List.length hent).trans (perm_cons_filter_key hs.steady.keys_nodup he).length_eq.symm
    refine ⟨e, _, hent, rfl, ?_⟩
    intro inserts ks hinserts hnodup hnew hks
    have hfull' : s'.cache.entries.length = s'.cache.bound.toNat := by rw [hlen, hbound, hfull]
    obtain ⟨htouched, hgone⟩ := deeds_full hinserts hs' hfull' hnodup hnew (by rwa [hlen, hfull])
    refine ⟨htouched, ?_⟩
    have hent : s'.cache.entries = e :: s.cache.view.entries.filter (·.key ≠ e.key) := hent
    rwa [hent, List.reverse_cons] at hgone

/-- A cache of three is full when its oldest entry is hit. The next two insertions cost the
    others, oldest first, and the third costs that entry. The callback moves the clock. -/
theorem recent_throughout_hit :
    let cfg : Settings := ⟨3, .zero, true, none, false, 0⟩
    let rs : List (Reaction Nat Nat) := [⟨none, 2, [.advance ⟨1⟩]⟩]
    let ops : List (Op Nat Nat) := [.put 1 10 none .abort, .put 2 20 none .abort, .put 3 30 none .abort]
    let inserts : List (Op Nat Nat) := [.put 4 40 none .abort, .getOrPut 5 50 ⟨9⟩ .report, .put 6 60 none .report]
    let s := (performAll Cache.engine ops ⟨cfg.build, rs⟩).2
    let hit := (s.perform Cache.engine (.get 1)).2
    (∀ r ∈ rs, ∀ op ∈ r.ops, op.aside false = true) ∧ (∀ op ∈ ops, op.quiet = true) ∧
      Recent (deeds ops ⟨cfg.build, rs⟩) s.cache.entries ∧ s.cache.entries.map (·.key) = [3, 2, 1] ∧
      (deeds inserts hit).map (·.gone) =
        [[(⟨1, 2, 20, none⟩, .capacity)], [(⟨2, 3, 30, none⟩, .capacity)], [(⟨0, 1, 10, none⟩, .capacity)]] := by
  intro cfg rs ops inserts s hit
  have hrs : ∀ r ∈ rs, ∀ op ∈ r.ops, op.aside false = true := by decide
  have hops : ∀ op ∈ ops, op.quiet = true := by decide
  obtain ⟨hrecent, -, hfull⟩ := recent_throughout cfg rs ops hrs hops
  obtain ⟨e, others, hent, -, hinserts⟩ := hfull (.get 1) 1 (by decide +kernel) (by decide +kernel)
  have hgone := (hinserts inserts [4, 5, 6] rfl (by decide) (by decide +kernel) (by decide +kernel)).2
  have hentries : e :: others = [⟨0, 1, 10, none⟩, ⟨2, 3, 30, none⟩, ⟨1, 2, 20, none⟩] := by
    rw [← hent]
    decide +kernel
  obtain ⟨rfl, rfl⟩ := List.cons.inj hentries
  exact ⟨hrs, hops, hrecent, by decide +kernel, hgone⟩

end Session

end Recency

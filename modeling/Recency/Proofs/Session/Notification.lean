import Recency.Proofs.Session.Orderly
/-
  Recency.Proofs.Session.Notification — the callback is called once for every entry that leaves.

  Keys come back, so the books are kept by stay. At every moment of an orderly run, the
  stays of the entries held, of the entries that have left and wait to be handed out, and
  of those handed out already are, together, all stays that have begun, each once
  (`Booked`). Each of these entries is as it was stored last, under the key with which its
  stay began.

  Entries wait only in tasks. When nothing is under way there are no tasks, so every stay
  that has begun is either still held, and the callback was never called for it, or it is
  over, and the callback was called for it exactly once (`Reach.notified_once`).
-/

namespace Recency

open scoped List

variable {κ ν : Type}

/-! ## The books -/

/-- The entry stored last in the stay `n`. -/
def lastStored (n : Nat) (stored : List (Entry κ ν)) : Option (Entry κ ν) := stored.find? (·.stay = n)

def ofStay (n : Nat) (l : List (Entry κ ν)) : List (Entry κ ν) := l.filter (·.stay = n)

/-- `held` are the entries of all stays begun, one for each, as they were stored last. -/
structure Booked (held : List (Entry κ ν)) (stays : Nat) (entered stored : List (Entry κ ν)) : Prop where
  stays_perm : (held.map (·.stay)).Perm (List.range stays)
  entered_eq : entered.map (·.stay) = (List.range stays).reverse
  stored_lt : ∀ x ∈ stored, x.stay < stays
  last : ∀ e ∈ held, lastStored e.stay stored = some e
  key : ∀ x ∈ stored, ∀ e ∈ held, x.stay = e.stay → x.key = e.key

theorem stored_of_entered {journal : List (Event κ ν)} {e : Entry κ ν} (h : e ∈ enteredIn journal) :
    e ∈ storedIn journal := by
  obtain ⟨event, hm, he⟩ := List.mem_filterMap.mp h
  refine List.mem_filterMap.mpr ⟨event, hm, ?_⟩
  cases event with
  | entered e' => exact he
  | _ => cases he

namespace Booked

variable {held held' entered stored : List (Entry κ ν)} {stays : Nat}

theorem perm (h : Booked held stays entered stored) (hp : held.Perm held') : Booked held' stays entered stored where
  stays_perm := (hp.map _).symm.trans h.stays_perm
  entered_eq := h.entered_eq
  stored_lt := h.stored_lt
  last e he := h.last e (hp.mem_iff.mpr he)
  key x hx e he := h.key x hx e (hp.mem_iff.mpr he)

theorem nodup (h : Booked held stays entered stored) : (held.map (·.stay)).Nodup :=
  h.stays_perm.nodup_iff.mpr List.nodup_range

theorem stay_lt (h : Booked held stays entered stored) {e : Entry κ ν} (he : e ∈ held) : e.stay < stays :=
  List.mem_range.mp (h.stays_perm.mem_iff.mp (List.mem_map_of_mem he))

theorem enter (h : Booked held stays entered stored) {e : Entry κ ν} (he : e.stay = stays) :
    Booked (e :: held) (stays + 1) (e :: entered) (e :: stored) := by
  have hne : ∀ x ∈ held, x.stay ≠ e.stay := fun x hx => by
    have := h.stay_lt hx
    omega
  refine ⟨?_, ?_, fun x hx => ?_, fun x hx => ?_, fun x hx y hy hxy => ?_⟩
  · rw [List.map_cons, he, List.range_succ]
    exact (h.stays_perm.cons _).trans (List.perm_append_singleton _ _).symm
  · rw [List.map_cons, he, h.entered_eq, List.range_succ, List.reverse_append]
    rfl
  · rcases List.mem_cons.mp hx with rfl | hx
    · omega
    · have := h.stored_lt x hx
      omega
  · rw [lastStored, List.find?_cons]
    rcases List.mem_cons.mp hx with rfl | hx
    · simp
    · have : ¬ e.stay = x.stay := fun hs => hne x hx hs.symm
      simp only [this, decide_false]
      exact h.last x hx
  · rcases List.mem_cons.mp hx with rfl | hx' <;> rcases List.mem_cons.mp hy with rfl | hy'
    · rfl
    · exact absurd hxy.symm (hne y hy')
    · have := h.stored_lt x hx'
      omega
    · exact h.key x hx' y hy' hxy

theorem overwrite {e e' : Entry κ ν} (h : Booked (e :: held) stays entered stored) (hs : e'.stay = e.stay)
    (hk : e'.key = e.key) : Booked (e' :: held) stays entered (e' :: stored) := by
  have hne : ∀ x ∈ held, x.stay ≠ e.stay := fun x hx hxe =>
    (List.nodup_cons.mp h.nodup).1 (List.mem_map.mpr ⟨x, hx, hxe⟩)
  refine ⟨?_, h.entered_eq, fun x hx => ?_, fun x hx => ?_, fun x hx y hy hxy => ?_⟩
  · have := h.stays_perm
    rwa [List.map_cons, ← hs] at this
  · rcases List.mem_cons.mp hx with rfl | hx
    · rw [hs]
      exact h.stay_lt List.mem_cons_self
    · exact h.stored_lt x hx
  · rw [lastStored, List.find?_cons]
    rcases List.mem_cons.mp hx with rfl | hx
    · simp
    · have : ¬ e'.stay = x.stay := fun hx' => hne x hx (hx'.symm.trans hs)
      simp only [this, decide_false]
      exact h.last x (List.mem_cons_of_mem _ hx)
  · rcases List.mem_cons.mp hx with rfl | hx' <;> rcases List.mem_cons.mp hy with rfl | hy'
    · rfl
    · exact absurd (hxy.symm.trans hs) (hne y hy')
    · rw [hk]
      exact h.key x hx' e List.mem_cons_self (hxy.trans hs)
    · exact h.key x hx' y (List.mem_cons_of_mem _ hy') hxy

/-- Of each stay begun, exactly one entry is held. -/
theorem ofStay_held (h : Booked held stays entered stored) {n : Nat} (hn : n < stays) :
    ∃ e, ofStay n held = [e] ∧ lastStored n stored = some e := by
  obtain ⟨e, he, rfl⟩ := List.mem_map.mp (h.stays_perm.mem_iff.mpr (List.mem_range.mpr hn))
  refine ⟨e, ?_, h.last e he⟩
  have hp := (perm_cons_filter_key h.nodup he).filter fun x => x.stay = e.stay
  rw [List.filter_cons_of_pos (by simp), List.filter_filter] at hp
  have hnone : held.filter (fun x => x.stay = e.stay && x.stay ≠ e.stay) = [] := by simp
  rw [hnone] at hp
  exact List.perm_singleton.mp hp

/-- When nothing is owed, the entry of a stay is in the cache or was handed out. -/
theorem settled {l l' : List (Entry κ ν)} (h : Booked (l ++ l') stays entered stored) {e₀ : Entry κ ν}
    (he₀ : e₀ ∈ stored) :
    ∃ e, e.key = e₀.key ∧ lastStored e₀.stay stored = some e ∧
      (ofStay e₀.stay l = [e] ∧ ofStay e₀.stay l' = [] ∨ ofStay e₀.stay l = [] ∧ ofStay e₀.stay l' = [e]) := by
  obtain ⟨e, hall, hlast⟩ := h.ofStay_held (h.stored_lt e₀ he₀)
  have hmem : e ∈ ofStay e₀.stay (l ++ l') := hall ▸ List.mem_singleton_self e
  obtain ⟨he, hstay⟩ := List.mem_filter.mp hmem
  have hstay : e.stay = e₀.stay := of_decide_eq_true hstay
  refine ⟨e, (h.key e₀ he₀ e he hstay.symm).symm, hlast, ?_⟩
  rw [ofStay, List.filter_append] at hall
  exact (List.append_eq_singleton_iff.mp hall).symm

theorem begun (h : Booked held stays entered stored) {e : Entry κ ν} (he : e ∈ held) :
    ∃ e₀ ∈ entered, e₀.stay = e.stay := by
  have hm : e.stay ∈ entered.map (·.stay) := by
    rw [h.entered_eq, List.mem_reverse]
    exact List.mem_range.mpr (h.stay_lt he)
  obtain ⟨e₀, he₀, hs⟩ := List.mem_map.mp hm
  exact ⟨e₀, he₀, hs⟩

end Booked

/-! ## The books of a cache -/

namespace Cache

/-- The books of `c`, where the entries `owed` have left and wait to be handed out. -/
structure Books (c : Cache κ ν) (owed : List (Entry κ ν)) : Prop where
  notifies : c.notifies = true
  booked : Booked (c.entries ++ (owed ++ notifiedIn c.journal)) c.stays (enteredIn c.journal) (storedIn c.journal)

/-- The books are in order, with what is owed by the tasks `ts`. -/
def Accounted (c : Cache κ ν) (ts : List (Task κ ν)) : Prop := c.Books (ts.flatMap Task.victims)

variable {c d : Cache κ ν} {owed : List (Entry κ ν)}

/-- Entries that have left are owed. -/
theorem Drops.books {gone : List (Entry κ ν)} (h : Drops gone c d) (hb : c.Books owed) : d.Books (gone ++ owed) := by
  refine ⟨h.notifies.trans hb.notifies, ?_⟩
  rw [h.stays, h.entered, h.stored, h.notified]
  refine hb.booked.perm ?_
  calc c.entries ++ (owed ++ notifiedIn c.journal)
    _ ~ (gone ++ d.entries) ++ (owed ++ notifiedIn c.journal) := h.entries.append_right _
    _ ~ (d.entries ++ gone) ++ (owed ++ notifiedIn c.journal) := List.perm_append_comm.append_right _
    _ = d.entries ++ (gone ++ owed ++ notifiedIn c.journal) := by simp only [List.append_assoc]

theorem Overwrites.books {e e' : Entry κ ν} (h : Overwrites e e' c d) (hb : c.Books owed) : d.Books owed := by
  obtain ⟨rest, hc, hd⟩ := h.entries
  refine ⟨h.notifies.trans hb.notifies, ?_⟩
  rw [h.stays, h.entered, h.stored, h.notified]
  have hheld : Booked (e :: (rest ++ (owed ++ notifiedIn c.journal))) c.stays (enteredIn c.journal)
      (storedIn c.journal) := hb.booked.perm (hc.append_right _)
  exact (hheld.overwrite h.stay h.key).perm (hd.symm.append_right _)

theorem Enters.books {e : Entry κ ν} (h : Enters e c d) (hb : c.Books owed) : d.Books owed := by
  refine ⟨h.notifies.trans hb.notifies, ?_⟩
  rw [h.stays, h.entered, h.stored, h.notified, h.entries]
  exact hb.booked.enter h.stay

/-- The entry handed out is owed no more. -/
theorem Books.notify {e : Entry κ ν} (hb : c.Books (e :: owed)) :
    Books { c with journal := .notified e :: c.journal } owed := by
  refine ⟨hb.notifies, hb.booked.perm ?_⟩
  exact List.perm_middle.symm.append_left c.entries

variable [DecidableEq κ]

theorem Moves.accounted {pending : List (Entry κ ν)} {r : EStateM.Result Abort (Cache κ ν) (Progress κ ν)}
    (h : Moves c pending r) (hc : c.Sound) {ts : List (Task κ ν)} (hb : c.Books (pending ++ ts.flatMap Task.victims)) :
    engine.Lasts Accounted ts r := by
  cases h with
  | breaks a h =>
    intro hts
    subst hts
    exact (h.2 hc.failing).books hb
  | keeps reply h hn =>
    have := h.books hb
    rwa [hn hb.notifies] at this
  | overwrites reply h => exact h.books hb
  | enters reply h => exact h.books hb
  | @releases d pending gone victim task h hv =>
    have hd := h.books hb
    rw [← List.append_assoc, hv] at hd
    show Accounted (if d.notifies then _ else d) (task :: ts)
    rw [if_pos hd.notifies]
    exact hd.notify

omit [DecidableEq κ] in
theorem Books.primed (hb : c.Books owed) (op : Op κ ν) : (c.primed op).Books owed := by
  cases op with
  | resize asked =>
    refine ⟨hb.notifies, ?_⟩
    by_cases e : asked = 0
    · subst e; exact hb.booked
    · have hj : (c.primed (.resize asked)).journal = c.journal := if_neg e
      rw [hj]
      exact hb.booked
  | _ => exact ⟨hb.notifies, hb.booked⟩

theorem build_books {cfg : Settings} (h : cfg.notifies = true) : (cfg.build : Cache κ ν).Books [] := by
  have he : (cfg.build : Cache κ ν).entries = [] := congrArg Plain.entries (build_steady cfg).2
  have hj : (cfg.build : Cache κ ν).journal = [] ∨
      (cfg.build : Cache κ ν).journal = [.noted (.defaultBound defaultBound)] := by
    by_cases e : cfg.bound = 0
    · exact .inr (if_pos e)
    · exact .inl (if_neg e)
  refine ⟨h, ?_⟩
  rw [he]
  rcases hj with hj | hj <;> rw [hj] <;>
    exact ⟨.refl _, rfl, fun _ hx => (nomatch hx), fun _ hx => (nomatch hx), fun _ hx => (nomatch hx)⟩

/-- A piece of an operation stores or hands out, not both. -/
theorem Moves.stores {pending : List (Entry κ ν)} {r : EStateM.Result Abort (Cache κ ν) (Progress κ ν)}
    (h : Moves c pending r) (hc : c.Sound) (op : Op κ ν) (below : List (Waiting κ ν)) (reactions : List (Reaction κ ν))
    (hs : storedIn (Machine.settle engine op below reactions r).cache.journal ≠ storedIn c.journal) :
    notifiedIn (Machine.settle engine op below reactions r).cache.journal = notifiedIn c.journal := by
  cases h with
  | breaks a h => exact absurd (h.2 hc.failing).stored hs
  | keeps reply h _ => cases below <;> exact h.notified
  | overwrites reply h => cases below <;> exact h.notified
  | enters reply h => cases below <;> exact h.notified
  | @releases d _ _ victim task h _ =>
    refine absurd ?_ hs
    simp only [Machine.settle, Machine.notify]
    split <;> exact h.stored

end Cache

namespace Machine

variable [DecidableEq κ]

theorem Reach.accounted {cfg : Settings} {rs : List (Reaction κ ν)} {m : Machine (Cache κ ν) κ ν}
    (hn : cfg.notifies = true)
    (h : Reach Cache.engine (fun op => op.calm = true) (Orderly Cache.engine) ⟨cfg.build, rs⟩ m)
    (hrs : ∀ r ∈ rs, ∀ op ∈ r.ops, op.calm = true) : m.cache.Accounted m.control.tasks :=
  h.lasts (I := Cache.Sound) (J := Cache.Accounted) (fun _ _ _ _ h => ⟨h.notifies, h.booked⟩)
    (fun task _ _ hc hb => (Cache.resume_moves hc.chain task).accounted hc hb)
    (fun op _ _ hop hc hb => (Cache.start_moves hc.chain op).accounted (hc.primed hop) (hb.primed op)) hrs
    (fun hm => hm.sound hrs) (Cache.build_books hn)

theorem start_stores {s : Session (Cache κ ν) κ ν} (hc : s.cache.Sound) {op : Op κ ν} (hop : op.calm = true)
    (hs : storedIn (start Cache.engine op s).cache.journal ≠ storedIn s.cache.journal) :
    notifiedIn (start Cache.engine op s).cache.journal = notifiedIn s.cache.journal := by
  obtain ⟨-, -, hp, hp'⟩ := Cache.primed_same s.cache op
  rw [← hp] at hs
  rw [← hp']
  exact (Cache.start_moves hc.chain op).stores (hc.primed hop) op [] s.reactions hs

theorem step_stores {m : Machine (Cache κ ν) κ ν} (hc : m.cache.Sound) (hu : m.Upholds fun op => op.calm = true)
    (hs : storedIn (step Cache.engine m).cache.journal ≠ storedIn m.cache.journal) :
    notifiedIn (step Cache.engine m).cache.journal = notifiedIn m.cache.journal := by
  rcases step_piece hc hu with he | ⟨ready, op, below, pending, r, hr, hm, he⟩
  · rw [he]
  · obtain ⟨-, -, hp, hp'⟩ := Cache.primed_same m.cache ready
    rw [he, ← hp] at hs
    rw [he, ← hp']
    exact hm.stores hr op below m.reactions hs

/-- When nothing is under way, each stay that has begun is held and was never notified of,
    or is over and was notified of exactly once; the entry is as it was stored last, under
    the key with which the stay began. At every moment nothing but stays that began was
    notified of, what was is no longer in the cache nor in its size, and what stores, under
    a new key or a present one, notifies of nothing. -/
theorem Reach.notified_once {cfg : Settings} {rs : List (Reaction κ ν)} {m : Machine (Cache κ ν) κ ν}
    (hn : cfg.notifies = true)
    (h : Reach Cache.engine (fun op => op.calm = true) (Orderly Cache.engine) ⟨cfg.build, rs⟩ m)
    (hrs : ∀ r ∈ rs, ∀ op ∈ r.ops, op.calm = true) :
    ((enteredIn m.cache.journal).map (·.stay)).Nodup ∧
      (∀ o, m.control = .finished o → ∀ e₀ ∈ enteredIn m.cache.journal, ∃ e,
        e.key = e₀.key ∧ lastStored e₀.stay (storedIn m.cache.journal) = some e ∧
          (ofStay e₀.stay m.cache.entries = [e] ∧ ofStay e₀.stay (notifiedIn m.cache.journal) = [] ∨
            ofStay e₀.stay m.cache.entries = [] ∧ ofStay e₀.stay (notifiedIn m.cache.journal) = [e])) ∧
      (∀ e ∈ notifiedIn m.cache.journal, (∃ e₀ ∈ enteredIn m.cache.journal, e₀.stay = e.stay) ∧
        ∀ x ∈ m.cache.entries, x.stay ≠ e.stay) ∧
      m.cache.size.toNat = m.cache.entries.length ∧
      (∀ o op, m.control = .finished o → op.calm = true →
        storedIn (Machine.start Cache.engine op m.toSession).cache.journal ≠ storedIn m.cache.journal →
        notifiedIn (Machine.start Cache.engine op m.toSession).cache.journal = notifiedIn m.cache.journal) ∧
      (storedIn (Machine.step Cache.engine m).cache.journal ≠ storedIn m.cache.journal →
        notifiedIn (Machine.step Cache.engine m).cache.journal = notifiedIn m.cache.journal) := by
  have hs := h.sound hrs
  have hb := (h.accounted hn hrs).booked
  refine ⟨?_, fun o ho e₀ he₀ => ?_, fun e he => ⟨?_, fun x hx hxe => ?_⟩, hs.size_eq,
    fun o op _ hop => start_stores hs hop, step_stores hs (h.upholds hrs)⟩
  · rw [hb.entered_eq, List.nodup_reverse]
    exact List.nodup_range
  · -- with nothing under way nothing is owed
    rw [ho] at hb
    exact hb.settled (stored_of_entered he₀)
  · exact hb.begun (by simp [he])
  · have hd := hb.nodup
    rw [List.map_append, List.nodup_append] at hd
    exact hd.2.2 _ (List.mem_map_of_mem hx) _ (List.mem_map.mpr ⟨e, by simp [he], rfl⟩) hxe

/-- A clear drops the keys 1 and 2, and the callback for the first stores under 1 again
    before it is called for the second. -/
theorem Reach.notified_once_cleared :
    let s : Session (Cache Nat Nat) Nat Nat :=
      ⟨Settings.build ⟨2, .zero, true, none, false, 0⟩, [⟨none, 1, [.put 1 11 none .report]⟩]⟩
    let full := Machine.start Cache.engine (.put 2 20 none .abort)
      (Machine.start Cache.engine (.put 1 10 none .abort) s).toSession
    let m := (Machine.start Cache.engine .clear full.toSession).run Cache.engine 6
    (∀ r ∈ s.reactions, ∀ op ∈ r.ops, op.calm = true) ∧
      Reach Cache.engine (fun op => op.calm = true) (Orderly Cache.engine) s m ∧
      m.control = .finished (.returned .unit) ∧
      enteredIn m.cache.journal = [⟨2, 1, 11, none⟩, ⟨1, 2, 20, none⟩, ⟨0, 1, 10, none⟩] ∧
      notifiedIn m.cache.journal = [⟨1, 2, 20, none⟩, ⟨0, 1, 10, none⟩] ∧
      ∀ e₀ ∈ enteredIn m.cache.journal, ∃ e,
        e.key = e₀.key ∧ lastStored e₀.stay (storedIn m.cache.journal) = some e ∧
          (ofStay e₀.stay m.cache.entries = [e] ∧ ofStay e₀.stay (notifiedIn m.cache.journal) = [] ∨
            ofStay e₀.stay m.cache.entries = [] ∧ ofStay e₀.stay (notifiedIn m.cache.journal) = [e]) := by
  intro s full m
  have hrs : ∀ r ∈ s.reactions, ∀ op ∈ r.ops, op.calm = true := by decide
  have hfull : Reach Cache.engine (fun op => op.calm = true) (Orderly Cache.engine) s full :=
    .start _ (.start _ .idle rfl rfl) rfl rfl
  have hA : ∀ k < 6, Orderly Cache.engine ((Machine.start Cache.engine .clear full.toSession).run Cache.engine k) := by
    decide +kernel
  have hm : Reach Cache.engine (fun op => op.calm = true) (Orderly Cache.engine) s m :=
    (Reach.start .clear hfull rfl rfl).run 6 hA
  have hc : m.control = .finished (.returned .unit) := by decide +kernel
  exact ⟨hrs, hm, hc, by decide +kernel, by decide +kernel, (Reach.notified_once rfl hm hrs).2.1 _ hc⟩

end Machine

end Recency

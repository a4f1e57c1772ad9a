import Mathlib.Data.List.Induction
import Recency.Cache.Journal
import Recency.Time.Clock
/-
  Recency.Proofs.Time.Clock — how far a clock can be moved before it goes back.

  A step adds its nanoseconds, or 2^64 - 1 if there are more (`counted`), to a count of 64
  bits that wraps. So a clock reads the sum of its steps mod 2^64 (`offset_run`), and one
  step sets it back just when that sum no longer fits (`advance_forward_iff`).

  Hence `forward_iff`: a clock never goes back, and what has expired on it stays expired,
  exactly if all its steps together fit 64 bits. It takes 584 years of steps, or one step
  that counts as 2^64 - 1 after any other, to break this (`wrapped_back`).
-/

namespace Recency

/-- The nanoseconds that a step adds. -/
def Duration.counted (d : Duration) : Nat := min d.nanos (UInt64.size - 1)

namespace Clock

/-- A new clock after some steps. -/
def run (steps : List Duration) : Clock := steps.foldl advance origin

def total : List Duration → Nat
  | [] => 0
  | d :: steps => d.counted + total steps

theorem run_concat (steps : List Duration) (d : Duration) : run (steps ++ [d]) = (run steps).advance d := by
  simp [run]

theorem total_append (earlier later : List Duration) : total (earlier ++ later) = total earlier + total later := by
  induction earlier with
  | nil => simp [total]
  | cons d earlier ih => simp [total, ih, Nat.add_assoc]

theorem total_singleton (d : Duration) : total [d] = d.counted := Nat.add_zero _

/-! ## One step -/

theorem counted_lt (d : Duration) : d.counted < UInt64.size := by
  have hsize : UInt64.size = 18446744073709551616 := rfl
  unfold Duration.counted
  omega

theorem offset_advance (c : Clock) (d : Duration) :
    (c.advance d).offset.toNat = (c.offset.toNat + d.counted) % UInt64.size := by
  show (c.offset + UInt64.ofNat d.counted).toNat = _
  rw [UInt64.toNat_add, UInt64.toNat_ofNat_of_lt' (counted_lt d)]

/-- A step goes forward unless the count wraps. -/
theorem advance_forward_iff (c : Clock) (d : Duration) :
    c.now.nanos ≤ (c.advance d).now.nanos ↔ c.offset.toNat + d.counted < UInt64.size := by
  show c.offset.toNat ≤ (c.advance d).offset.toNat ↔ _
  rw [offset_advance]
  have hoffset : c.offset.toNat < UInt64.size := c.offset.toNat_lt
  have hcounted := counted_lt d
  constructor
  · intro hle
    refine Nat.lt_of_not_le fun hwraps => ?_
    -- it wraps once, and comes out short of where it was
    rw [Nat.mod_eq_sub_mod hwraps, Nat.mod_eq_of_lt (by omega)] at hle
    omega
  · intro hfits
    rw [Nat.mod_eq_of_lt hfits]
    omega

/-! ## Many steps -/

theorem offset_run (steps : List Duration) : (run steps).offset.toNat = total steps % UInt64.size := by
  induction steps using List.reverseRecOn with
  | nil => rfl
  | append_singleton steps d ih =>
    rw [run_concat, offset_advance, ih, Nat.mod_add_mod, total_append, total_singleton]

theorem now_run (steps : List Duration) (hfits : total steps < UInt64.size) : (run steps).now.nanos = total steps := by
  show (run steps).offset.toNat = _
  rw [offset_run, Nat.mod_eq_of_lt hfits]

/-- No reading is below one taken earlier. -/
def Forward (steps : List Duration) : Prop :=
  ∀ earlier later, earlier <+: later → later <+: steps → (run earlier).now.nanos ≤ (run later).now.nanos

theorem forward_of_fits {steps : List Duration} (hfits : total steps < UInt64.size) : Forward steps := by
  rintro earlier later ⟨middle, rfl⟩ ⟨rest, rfl⟩
  rw [total_append, total_append] at hfits
  rw [now_run earlier (by omega), now_run _ (by rw [total_append]; omega), total_append]
  omega

theorem fits_of_forward {steps : List Duration} (h : Forward steps) : total steps < UInt64.size := by
  -- the last step goes forward too, from where the others have led
  induction steps using List.reverseRecOn with
  | nil => exact Nat.two_pow_pos 64
  | append_singleton steps d ih =>
    have hsteps : steps <+: steps ++ [d] := List.prefix_append steps [d]
    have hfits := ih fun earlier later he hl => h earlier later he (hl.trans hsteps)
    have hlast := h steps (steps ++ [d]) hsteps (List.prefix_refl _)
    rw [run_concat, advance_forward_iff, offset_run, Nat.mod_eq_of_lt hfits] at hlast
    rwa [total_append, total_singleton]

/-! ## What has expired -/

variable {κ ν : Type}

/-- On a clock that goes forward what has expired stays expired; on one that goes back, what was
    due where it has gone back to does not. -/
theorem forward_iff_expired (e : Entry κ ν) (steps : List Duration) :
    Forward steps ↔ ∀ deadline earlier later, earlier <+: later → later <+: steps →
      { e with deadline }.expired (run earlier).now = true → { e with deadline }.expired (run later).now = true := by
  constructor
  · intro h deadline earlier later he hl hexpired
    cases deadline with
    | none => cases hexpired
    | some due =>
      have hdue : due.nanos < (run earlier).now.nanos := of_decide_eq_true hexpired
      exact decide_eq_true (Nat.lt_of_lt_of_le hdue (h earlier later he hl))
  · intro h earlier later he hl
    refine Nat.le_of_not_lt fun hback => ?_
    have hexpired := h (some (run later).now) earlier later he hl (decide_eq_true hback)
    exact Nat.lt_irrefl _ (of_decide_eq_true hexpired)

/-- A clock never goes back exactly if its steps together fit 64 bits of nanoseconds, and just
    then whatever was expired at some reading is expired at every later one. -/
theorem forward_iff (e : Entry κ ν) (steps : List Duration) :
    ((∀ earlier later, earlier <+: later → later <+: steps →
        (run earlier).elapsed.nanos ≤ (run later).elapsed.nanos ∧
          (run earlier).now.nanos ≤ (run later).now.nanos) ↔ total steps < UInt64.size) ∧
      ((∀ deadline earlier later, earlier <+: later → later <+: steps →
        { e with deadline }.expired (run earlier).now = true →
          { e with deadline }.expired (run later).now = true) ↔ total steps < UInt64.size) := by
  have hfits : Forward steps ↔ total steps < UInt64.size := ⟨fits_of_forward, forward_of_fits⟩
  refine ⟨?_, ?_⟩
  · rw [← hfits]
    constructor
    · intro h earlier later he hl
      exact (h earlier later he hl).2
    · intro h earlier later he hl
      exact ⟨h earlier later he hl, h earlier later he hl⟩
  · rw [← hfits]
    exact (forward_iff_expired e steps).symm

/-- One second, and then as many seconds as a span can have: the clock goes back by a nanosecond,
    and what was due in between, and had expired, has not. -/
theorem wrapped_back :
    let before := run [.ofParts 1 0]
    let after := run [.ofParts 1 0, .ofParts 18446744073709551615 0]
    let e : Entry Nat Nat := ⟨0, 1, 10, some ⟨999999999⟩⟩
    before.elapsed = .ofParts 1 0 ∧ after.elapsed = .ofParts 0 999999999 ∧
      e.expired before.now = true ∧ e.expired after.now = false := by
  decide

end Clock

end Recency

import FairShare.Timeout.State

/-!
# The flags of a timeout

What each operation does to the flags and to the clock of a timeout. Only a refresh raises the paused flag, only a
hard abort raises the hard-abort flag, and only a reset takes that down.
-/

namespace FairShare

namespace Flags

variable (f : Flags)

/-- A hard abort is what a computer learns first. -/
theorem check_hard : f.check = .error .hard ↔ f.hardAborted = true := by
  unfold check
  cases f.hardAborted <;> cases f.softAborted <;> simp

/-- A soft abort shows where no hard abort hides it. -/
theorem check_soft : f.check = .error .soft ↔ f.hardAborted = false ∧ f.softAborted = true := by
  unfold check
  cases f.hardAborted <;> cases f.softAborted <;> simp

/-- A computer may go on while neither abort is up. -/
theorem check_ok : f.check = .ok () ↔ f.hardAborted = false ∧ f.softAborted = false := by
  unfold check
  cases f.hardAborted <;> cases f.softAborted <;> simp

/-- A store that raises the paused flag unless it is up. -/
theorem raise_paused (due : Bool) :
    (if !f.paused && due then [Store.paused true] else []).foldl apply f = { f with paused := f.paused || due } := by
  cases hp : f.paused <;> cases due <;> simp [apply, Flags.ext_iff, hp]

/-- A store that raises the soft-abort flag unless it is up. -/
theorem raise_softAborted (due : Bool) :
    (if !f.softAborted && due then [Store.softAborted true] else []).foldl apply f =
      { f with softAborted := f.softAborted || due } := by
  cases hs : f.softAborted <;> cases due <;> simp [apply, Flags.ext_iff, hs]

end Flags

namespace TimeoutState

variable (t : TimeoutState) (share : Share) (budget : Duration) (now : Instant)

@[simp] theorem refresh_clock : (t.refresh share now).clock = t.clock := rfl

@[simp] theorem refresh_config : (t.refresh share now).config = t.config := rfl

@[simp] theorem armClock_start : (t.armClock budget now).clock.start = t.clock.start := rfl

@[simp] theorem hardAbort_clock : t.hardAbort.clock = t.clock := rfl

@[simp] theorem startClock_start : (t.startClock now).clock.start = some now := rfl

@[simp] theorem startClock_flags : (t.startClock now).flags = t.flags := rfl

@[simp] theorem reset_start : t.reset.clock.start = none := rfl

@[simp] theorem reset_flags : t.reset.flags = {} := rfl

@[simp] theorem hardAbort_flags : t.hardAbort.flags = { t.flags with softAborted := true, hardAborted := true } := rfl

@[simp] theorem armClock_paused : (t.armClock budget now).flags.paused = false := by
  unfold armClock armStores store
  split <;> rfl

@[simp] theorem armClock_hardAborted : (t.armClock budget now).flags.hardAborted = t.flags.hardAborted := by
  unfold armClock armStores store
  split <;> rfl

/-- Arming leaves the soft abort up only under a hard abort. -/
theorem armClock_softAborted :
    (t.armClock budget now).flags.softAborted = (t.flags.hardAborted && t.flags.softAborted) := by
  unfold armClock armStores store
  cases h : t.flags.hardAborted <;> rfl

@[simp] theorem refresh_hardAborted : (t.refresh share now).flags.hardAborted = t.flags.hardAborted := by
  unfold refresh refreshStores store
  split
  · rfl
  · split <;> split <;> rfl

/-- A refresh raises the paused flag within a slice that has run for its share, when others wait. -/
theorem refresh_paused (h : (t.refresh share now).flags.paused = true) :
    t.flags.paused = true ∨
      ∃ start, t.clock.start = some start ∧ share.contended = true ∧ share.period.nanos ≤ now - start := by
  by_cases hp : t.flags.paused = true
  · exact Or.inl hp
  · refine Or.inr ?_
    cases hs : t.clock.start with
    | none =>
      have hr : t.refresh share now = t := by unfold refresh refreshStores store; rw [hs]; rfl
      rw [hr] at h
      exact absurd h hp
    | some start =>
      refine ⟨start, rfl, ?_⟩
      by_cases hc : share.contended = true ∧ share.period.nanos ≤ now - start
      · exact hc
      · have hcond : (!t.flags.paused && share.contended && decide (share.period.nanos ≤ now - start)) = false := by
          simpa [hp] using hc
        unfold refresh refreshStores store at h
        simp only [hs, hcond, Bool.false_eq_true, if_false, List.nil_append] at h
        split at h <;> exact absurd h hp

/-- Outside a slice a refresh does nothing. -/
theorem refresh_of_none (h : t.clock.start = none) : t.refresh share now = t := by
  unfold refresh refreshStores store
  rw [h]
  rfl

/-- What a refresh makes of the flags within a slice. -/
theorem refresh_flags {start : Instant} (h : t.clock.start = some start) :
    (t.refresh share now).flags =
      { paused := t.flags.paused || share.contended && decide (share.period.nanos ≤ now - start)
        softAborted := t.flags.softAborted || decide (t.clock.budget.nanos ≤ now - t.clock.armedAt)
        hardAborted := t.flags.hardAborted } := by
  have hleft : t.clock.remaining now ≤ 0 ↔ t.clock.budget.nanos ≤ now - t.clock.armedAt := by
    unfold SliceClock.remaining
    rw [h]
    dsimp only
    omega
  have hpause := t.flags.raise_paused (share.contended && decide (share.period.nanos ≤ now - start))
  have hsoft := Flags.raise_softAborted
    { t.flags with paused := t.flags.paused || share.contended && decide (share.period.nanos ≤ now - start) }
    (decide (t.clock.budget.nanos ≤ now - t.clock.armedAt))
  unfold refresh refreshStores store
  simp only [h, hleft, List.foldl_append, Bool.and_assoc, hpause]
  exact hsoft

/-- A refresh raises the soft abort within a slice that has no budget left. -/
theorem refresh_softAborted :
    (t.refresh share now).flags.softAborted =
      (t.flags.softAborted || t.clock.start.isSome && decide (t.clock.remaining now ≤ 0)) := by
  cases h : t.clock.start with
  | none => simp [refresh_of_none _ _ _ h]
  | some start =>
    have hleft : t.clock.remaining now ≤ 0 ↔ t.clock.budget.nanos ≤ now - t.clock.armedAt := by
      unfold SliceClock.remaining
      rw [h]
      dsimp only
      omega
    simp [refresh_flags _ _ _ h, hleft]

@[simp] theorem refresh_overrun (later : Instant) : (t.refresh share now).overrun later = t.overrun later := rfl

@[simp] theorem hardAbort_overrun (later : Instant) : t.hardAbort.overrun later = t.overrun later := rfl

end TimeoutState

end FairShare

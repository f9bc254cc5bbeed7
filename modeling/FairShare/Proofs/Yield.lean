import FairShare.Proofs.Retrospect

/-!
# Budgets across slices

A computer that yields keeps what was left of its budget and arms that when it comes back. What it is granted in all its
slices together is then the budget of the first: no time is lost between two slices, and none is won. Keeping what is
left and arming it at once changes nothing either, until the slice is started anew.
-/

namespace FairShare

namespace TimeoutRun

variable {r : TimeoutRun} {budget : Duration}

/-- Where a computer is that comes back to its budget after each slice. -/
inductive Turn where
  /-- In a slice. -/
  | running
  /-- Between two slices, with what was left. -/
  | away (left : Duration)
  /-- At the start of a slice, before it arms what was left. -/
  | back (left : Duration)

/-- Slices of one budget, and for how long they ran. -/
inductive Shares (budget : Duration) : TimeoutRun → Turn → Nat → Prop
  /-- The first slice is started, and the budget is armed. -/
  | armed (r : TimeoutRun) (configured : 0 < r.timeout.config.timeout.nanos)
    (standing : r.timeout.flags.hardAborted = false) :
    Shares budget ((r.after .start).after (.arm budget)) .running 0
  /-- The first slice is started with the budget that is armed already. -/
  | started (r : TimeoutRun) (configured : 0 < r.timeout.config.timeout.nanos)
    (standing : r.timeout.flags.check = .ok ()) (budgeted : r.timeout.clock.budget = budget) :
    Shares budget (r.after .start) .running 0
  /-- The clock is compared at any moment. -/
  | refresh {r : TimeoutRun} {turn : Turn} {ran : Nat} (slices : Shares budget r turn ran) :
    Shares budget (r.after .refresh) turn ran
  /-- The share changes at any moment. -/
  | share {r : TimeoutRun} {turn : Turn} {ran : Nat} (share : Share) (slices : Shares budget r turn ran) :
    Shares budget (r.after (.share share)) turn ran
  /-- The computer runs. -/
  | run {r : TimeoutRun} {ran : Nat} (nanos : Nat) (slices : Shares budget r .running ran) :
    Shares budget (r.after (.advance nanos)) .running (ran + nanos)
  /-- Time passes between two slices. -/
  | wait {r : TimeoutRun} {left : Duration} {ran : Nat} (nanos : Nat) (slices : Shares budget r (.away left) ran) :
    Shares budget (r.after (.advance nanos)) (.away left) ran
  /-- The computer reads what is left, and its slice ends. -/
  | yield {r : TimeoutRun} {ran : Nat} (slices : Shares budget r .running ran) :
    Shares budget (r.after .reset) (.away (r.timeout.remainingTime r.now)) ran
  /-- The next slice is started. -/
  | resume {r : TimeoutRun} {left : Duration} {ran : Nat} (slices : Shares budget r (.away left) ran) :
    Shares budget (r.after .start) (.back left) ran
  /-- What was left is armed at the same instant. -/
  | rearm {r : TimeoutRun} {left : Duration} {ran : Nat} (slices : Shares budget r (.back left) ran) :
    Shares budget (r.after (.arm left)) .running ran

/-- The clock is in a slice, and what is left of its budget is some number of nanoseconds. -/
structure Left (r : TimeoutRun) (nanos : Nat) : Prop where
  started : r.timeout.clock.start ≠ none
  armed : r.timeout.clock.armedAt ≤ r.now
  left : r.timeout.clock.budget.nanos - (r.now - r.timeout.clock.armedAt) = nanos

/-- The account of the slices: what is left for the next one is what the budget grants past what they ran for, and the
soft abort is up at the most once nothing is left. -/
structure Balanced (budget : Duration) (r : TimeoutRun) (turn : Turn) (ran : Nat) : Prop where
  configured : 0 < r.timeout.config.timeout.nanos
  standing : r.timeout.flags.hardAborted = false
  unspent : ran < budget.nanos → r.timeout.flags.softAborted = false
  clock : match turn with
    | .running => r.Left (budget.nanos - ran)
    | .away left => r.timeout.clock.start = none ∧ r.timeout.clock.budget = r.timeout.config.timeout ∧
        r.timeout.flags.softAborted = false ∧ left.nanos = budget.nanos - ran
    | .back left => r.Left r.timeout.config.timeout.nanos ∧ r.timeout.flags.softAborted = false ∧
        left.nanos = budget.nanos - ran

theorem Left.remaining {n : Nat} (h : r.Left n) : (r.timeout.clock.remaining r.now).toNat = n := by
  obtain ⟨hstart, harmed, hleft⟩ := h
  obtain ⟨start, hs⟩ := Option.ne_none_iff_exists'.1 hstart
  unfold SliceClock.remaining
  rw [hs]
  dsimp only
  omega

/-- Within a slice a refresh raises the soft abort once nothing is left. -/
theorem Left.refresh_softAborted {n : Nat} (h : r.Left n) (share : Share) :
    (r.timeout.refresh share r.now).flags.softAborted = (r.timeout.flags.softAborted || decide (n = 0)) := by
  obtain ⟨hstart, -, hleft⟩ := h
  obtain ⟨start, hs⟩ := Option.ne_none_iff_exists'.1 hstart
  rw [TimeoutState.refresh_flags _ _ _ hs]
  simp only [← hleft, Nat.sub_eq_zero_iff_le]

theorem Left.advance {n : Nat} (h : r.Left n) (nanos : Nat) : (r.after (.advance nanos)).Left (n - nanos) := by
  obtain ⟨hstart, harmed, hleft⟩ := h
  refine ⟨hstart, Nat.le_trans harmed (Nat.le_add_right _ _), ?_⟩
  show r.timeout.clock.budget.nanos - (r.now + nanos - r.timeout.clock.armedAt) = n - nanos
  rw [Nat.sub_add_comm harmed, Nat.sub_add_eq, hleft]

/-- What is left depends on the clock alone. -/
theorem Left.same {r' : TimeoutRun} {n : Nat} (h : r.Left n) (hclock : r'.timeout.clock = r.timeout.clock)
    (hnow : r'.now = r.now) : r'.Left n := by
  obtain ⟨hstart, harmed, hleft⟩ := h
  rw [← hclock] at hstart harmed hleft
  rw [← hnow] at harmed hleft
  exact ⟨hstart, harmed, hleft⟩

theorem left_start (r : TimeoutRun) : (r.after .start).Left r.timeout.clock.budget.nanos :=
  ⟨Option.some_ne_none _, Nat.le_refl _, by simp [after, TimeoutState.startTimer, TimeoutState.startClock]⟩

theorem left_arm (h : r.timeout.clock.start ≠ none) (budget : Duration) :
    (r.after (.arm budget)).Left budget.nanos :=
  ⟨h, Nat.le_refl _, by simp [after, TimeoutState.arm, TimeoutState.armClock, TimeoutState.store]⟩

theorem start_softAborted (r : TimeoutRun) :
    (r.after .start).timeout.flags.softAborted =
      (r.timeout.flags.softAborted || decide (r.timeout.clock.budget.nanos = 0)) := by
  have hleft : ({ r with timeout := r.timeout.startClock r.now } : TimeoutRun).Left r.timeout.clock.budget.nanos :=
    ⟨Option.some_ne_none _, Nat.le_refl _, by simp [TimeoutState.startClock]⟩
  exact hleft.refresh_softAborted r.share

theorem arm_softAborted (h : r.timeout.clock.start ≠ none) (hhard : r.timeout.flags.hardAborted = false)
    (budget : Duration) : (r.after (.arm budget)).timeout.flags.softAborted = decide (budget.nanos = 0) := by
  have hleft : ({ r with timeout := r.timeout.armClock budget r.now } : TimeoutRun).Left budget.nanos :=
    ⟨h, Nat.le_refl _, by simp [TimeoutState.armClock, TimeoutState.store]⟩
  have hsoft := hleft.refresh_softAborted r.share
  dsimp only at hsoft
  rw [TimeoutState.armClock_softAborted, hhard, Bool.false_and, Bool.false_or] at hsoft
  exact hsoft

/-- Every slice keeps the account. -/
theorem Shares.balanced {turn : Turn} {ran : Nat} (hpos : 0 < budget.nanos) (hword : budget.nanos ≤ maxWord)
    (h : Shares budget r turn ran) : Balanced budget r turn ran := by
  induction h with
  | armed r configured standing =>
    have hstart := (left_start r).started
    have hhard : (r.after .start).timeout.flags.hardAborted = false :=
      (TimeoutState.refresh_hardAborted _ _ _).trans standing
    refine ⟨configured, ?_, fun _ => ?_, left_arm hstart budget⟩
    · exact ((TimeoutState.refresh_hardAborted _ _ _).trans (TimeoutState.armClock_hardAborted _ _ _)).trans hhard
    · rw [arm_softAborted hstart hhard]
      exact decide_eq_false (Nat.ne_of_gt hpos)
  | started r configured standing budgeted =>
    obtain ⟨hhard, hsoft⟩ := (Flags.check_ok _).1 standing
    refine ⟨configured, (TimeoutState.refresh_hardAborted _ _ _).trans hhard, fun _ => ?_, budgeted ▸ left_start r⟩
    rw [start_softAborted, hsoft, budgeted]
    exact decide_eq_false (Nat.ne_of_gt hpos)
  | @refresh r turn ran slices ih =>
    have hhard := (TimeoutState.refresh_hardAborted r.timeout r.share r.now).trans ih.standing
    cases turn with
    | running =>
      refine ⟨ih.configured, hhard, fun hless => ?_, ih.clock.same rfl rfl⟩
      show (r.timeout.refresh r.share r.now).flags.softAborted = false
      rw [ih.clock.refresh_softAborted, ih.unspent hless]
      exact decide_eq_false (Nat.ne_of_gt (Nat.sub_pos_of_lt hless))
    | away left =>
      have hsame : r.after .refresh = r := by
        rw [after, TimeoutState.refresh_of_none _ _ _ ih.clock.1]
      rw [hsame]
      exact ih
    | back left =>
      obtain ⟨hleft, hsoft, hsaved⟩ := ih.clock
      have hdown : (r.timeout.refresh r.share r.now).flags.softAborted = false := by
        rw [hleft.refresh_softAborted, hsoft]
        exact decide_eq_false (Nat.ne_of_gt ih.configured)
      exact ⟨ih.configured, hhard, fun _ => hdown, hleft.same rfl rfl, hdown, hsaved⟩
  | @share r turn ran share slices ih =>
    refine ⟨ih.configured, ih.standing, ih.unspent, ?_⟩
    cases turn with
    | running => exact ih.clock.same rfl rfl
    | away left => exact ih.clock
    | back left => exact ⟨ih.clock.1.same rfl rfl, ih.clock.2⟩
  | run nanos slices ih =>
    refine ⟨ih.configured, ih.standing, fun hless => ih.unspent (by omega), ?_⟩
    have hleft := ih.clock.advance nanos
    rwa [Nat.sub_sub] at hleft
  | wait nanos slices ih => exact ⟨ih.configured, ih.standing, ih.unspent, ih.clock⟩
  | yield slices ih =>
    refine ⟨ih.configured, rfl, fun _ => rfl, rfl, rfl, rfl, ?_⟩
    show clampWord _ = _
    rw [ih.clock.remaining]
    exact clampWord_of_le (by omega)
  | @resume r left ran slices ih =>
    obtain ⟨-, hbudget, hsoft, hsaved⟩ := ih.clock
    have hdown : (r.after .start).timeout.flags.softAborted = false := by
      rw [start_softAborted, hsoft, hbudget]
      exact decide_eq_false (Nat.ne_of_gt ih.configured)
    exact ⟨ih.configured, (TimeoutState.refresh_hardAborted _ _ _).trans ih.standing, fun _ => hdown,
      hbudget ▸ left_start r, hdown, hsaved⟩
  | @rearm r left ran slices ih =>
    obtain ⟨hleft, -, hsaved⟩ := ih.clock
    have hhard := (TimeoutState.armClock_hardAborted r.timeout left r.now).trans ih.standing
    refine ⟨ih.configured, (TimeoutState.refresh_hardAborted _ _ _).trans hhard, fun hless => ?_, ?_⟩
    · rw [arm_softAborted hleft.started ih.standing]
      exact decide_eq_false (by omega)
    · have harmed := left_arm hleft.started left
      rwa [hsaved] at harmed

/-! ### Arming what is left -/

/-- Two timeouts that are told apart by nothing but the paused flag, until a slice is started. -/
structure Agrees (x y : TimeoutRun) : Prop where
  now : x.now = y.now
  share : x.share = y.share
  config : x.timeout.config = y.timeout.config
  start : x.timeout.clock.start = y.timeout.clock.start
  softAborted : x.timeout.flags.softAborted = y.timeout.flags.softAborted
  hardAborted : x.timeout.flags.hardAborted = y.timeout.flags.hardAborted
  remaining : ∀ later, x.now ≤ later → x.timeout.clock.remaining later = y.timeout.clock.remaining later

variable {x y : TimeoutRun}

theorem Agrees.refresh (h : Agrees x y) : Agrees (x.after .refresh) (y.after .refresh) := by
  refine ⟨h.now, h.share, h.config, h.start, ?_, ?_, h.remaining⟩
  · show (x.timeout.refresh x.share x.now).flags.softAborted = (y.timeout.refresh y.share y.now).flags.softAborted
    rw [TimeoutState.refresh_softAborted, TimeoutState.refresh_softAborted, h.softAborted, h.start,
      h.remaining x.now (Nat.le_refl _), h.now]
  · exact ((TimeoutState.refresh_hardAborted _ _ _).trans h.hardAborted).trans
      (TimeoutState.refresh_hardAborted _ _ _).symm

/-- Both do the same, but a start tells two budgets apart. -/
theorem Agrees.after (h : Agrees x y) (e : TimeoutEvent)
    (hbudget : e = .start → x.timeout.clock.budget = y.timeout.clock.budget) : Agrees (x.after e) (y.after e) := by
  obtain ⟨hnow, hshare, hconfig, hstart, hsoft, hhard, hremaining⟩ := h
  cases e with
  | start =>
    have hclock : Agrees { x with timeout := x.timeout.startClock x.now } { y with timeout := y.timeout.startClock y.now } := by
      refine ⟨hnow, hshare, hconfig, congrArg some hnow, hsoft, hhard, fun later _ => ?_⟩
      simp only [TimeoutState.startClock, hbudget rfl, hnow]
    exact hclock.refresh
  | refresh => exact Agrees.refresh ⟨hnow, hshare, hconfig, hstart, hsoft, hhard, hremaining⟩
  | arm budget =>
    have hclock : Agrees { x with timeout := x.timeout.armClock budget x.now }
        { y with timeout := y.timeout.armClock budget y.now } := by
      refine ⟨hnow, hshare, hconfig, hstart, ?_, ?_, fun later _ => ?_⟩
      · simp only [TimeoutState.armClock_softAborted, hsoft, hhard]
      · simp only [TimeoutState.armClock_hardAborted, hhard]
      · simp only [SliceClock.remaining, TimeoutState.armClock, TimeoutState.store, hstart, hnow]
    exact hclock.refresh
  | hardAbort => exact ⟨hnow, hshare, hconfig, hstart, rfl, rfl, hremaining⟩
  | reset =>
    refine ⟨hnow, hshare, hconfig, rfl, rfl, rfl, fun later _ => ?_⟩
    simp only [SliceClock.remaining, TimeoutRun.after, TimeoutState.reset, TimeoutState.store, hconfig]
  | advance nanos =>
    exact ⟨congrArg (· + nanos) hnow, hshare, hconfig, hstart, hsoft, hhard,
      fun later hle => hremaining later (Nat.le_trans (Nat.le_add_right _ _) hle)⟩
  | share share => exact ⟨hnow, rfl, hconfig, hstart, hsoft, hhard, hremaining⟩

/-- What an event leaves of the budget. -/
theorem budget_after (r : TimeoutRun) (e : TimeoutEvent) :
    (r.after e).timeout.clock.budget =
      match e with
      | .arm budget => budget
      | .reset => r.timeout.config.timeout
      | _ => r.timeout.clock.budget := by
  cases e <;> rfl

/-- Past an arming or a reset the budgets are the same. -/
theorem Agrees.budget_of_clears (h : Agrees x y) {e : TimeoutEvent} (he : e.clears = true) :
    (x.after e).timeout.clock.budget = (y.after e).timeout.clock.budget := by
  rw [budget_after, budget_after]
  cases e with
  | arm budget => rfl
  | reset => exact congrArg TimeoutConfig.timeout h.config
  | _ => cases he

theorem budget_after_eq (h : Agrees x y) (hbudget : x.timeout.clock.budget = y.timeout.clock.budget) (e : TimeoutEvent) :
    (x.after e).timeout.clock.budget = (y.after e).timeout.clock.budget := by
  rw [budget_after, budget_after, h.config, hbudget]

/-- What can be read of two timeouts is the same, the paused flag apart. -/
structure ReadsAlike (x y : TimeoutRun) : Prop where
  now : x.now = y.now
  remainingTime : x.timeout.remainingTime x.now = y.timeout.remainingTime y.now
  overrun : x.timeout.overrun x.now = y.timeout.overrun y.now
  executionTime : x.timeout.executionTime x.now = y.timeout.executionTime y.now
  softAborted : x.timeout.flags.softAborted = y.timeout.flags.softAborted

theorem Agrees.readsAlike (h : Agrees x y) : ReadsAlike x y := by
  have hremaining : x.timeout.clock.remaining x.now = y.timeout.clock.remaining y.now :=
    (h.remaining x.now (Nat.le_refl _)).trans (congrArg _ h.now)
  refine ⟨h.now, ?_, ?_, ?_, h.softAborted⟩
  · simp only [TimeoutState.remainingTime, hremaining]
  · simp only [TimeoutState.overrun, hremaining]
  · simp only [TimeoutState.executionTime, h.start, h.now]

/-- No slice is started before a budget is armed or the slice ends. -/
def StartsAfresh (events : List TimeoutEvent) : Prop :=
  ∀ before after, events = before ++ .start :: after → ∃ e ∈ before, e.clears = true

theorem startsAfresh_cons {e : TimeoutEvent} {events : List TimeoutEvent} :
    StartsAfresh (e :: events) ↔ e ≠ .start ∧ (e.clears = true ∨ StartsAfresh events) := by
  constructor
  · intro h
    have hstart : e ≠ .start := by
      rintro rfl
      obtain ⟨e, hmem, -⟩ := h [] events rfl
      cases hmem
    refine ⟨hstart, Classical.or_iff_not_imp_left.2 fun hclears before after hevents => ?_⟩
    obtain ⟨e', hmem, he'⟩ := h (e :: before) after (congrArg (e :: ·) hevents)
    rcases List.mem_cons.1 hmem with rfl | hmem
    · exact absurd he' hclears
    · exact ⟨e', hmem, he'⟩
  · rintro ⟨hstart, h⟩ before after hevents
    cases before with
    | nil => exact absurd (List.cons.inj hevents).1 hstart
    | cons e' before =>
      obtain ⟨rfl, hrest⟩ := List.cons.inj hevents
      rcases h with hclears | h
      · exact ⟨e, List.mem_cons_self .., hclears⟩
      · obtain ⟨e', hmem, he'⟩ := h before after hrest
        exact ⟨e', List.mem_cons_of_mem _ hmem, he'⟩

theorem Agrees.run_of_budget (h : Agrees x y) (hbudget : x.timeout.clock.budget = y.timeout.clock.budget)
    (events : List TimeoutEvent) : Agrees (x.run events) (y.run events) := by
  induction events generalizing x y with
  | nil => exact h
  | cons e events ih => exact ih (h.after e fun _ => hbudget) (budget_after_eq h hbudget e)

theorem Agrees.run (h : Agrees x y) {events : List TimeoutEvent} (hafresh : StartsAfresh events) :
    Agrees (x.run events) (y.run events) := by
  induction events generalizing x y with
  | nil => exact h
  | cons e events ih =>
    obtain ⟨hstart, hrest⟩ := startsAfresh_cons.1 hafresh
    have hnext := h.after e fun he => absurd he hstart
    rcases hrest with hclears | hafresh
    · exact hnext.run_of_budget (h.budget_of_clears hclears) events
    · exact ih hnext hafresh

/-- Within a slice, what is left can be armed at once. -/
theorem agrees_arm (hstart : r.timeout.clock.start ≠ none) (harmed : r.timeout.clock.armedAt ≤ r.now)
    (hpos : 0 < r.timeout.clock.remaining r.now) (hword : r.timeout.clock.remaining r.now ≤ maxWord)
    (hsoft : r.timeout.flags.softAborted = false) :
    Agrees (r.after (.arm (r.timeout.remainingTime r.now))) r := by
  have hsaved : ((r.timeout.remainingTime r.now).nanos : Int) = r.timeout.clock.remaining r.now := by
    show ((clampWord _ : Nat) : Int) = _
    rw [clampWord_of_le (by omega)]
    omega
  obtain ⟨start, hs⟩ := Option.ne_none_iff_exists'.1 hstart
  refine ⟨rfl, rfl, rfl, rfl, ?_, ?_, fun later hle => ?_⟩
  · have hfull (left : Duration) :
        (r.timeout.armClock left r.now).clock.remaining r.now = left.nanos := by
      simp [SliceClock.remaining, TimeoutState.armClock, TimeoutState.store, hs]
    show ((r.timeout.armClock _ r.now).refresh r.share r.now).flags.softAborted = _
    rw [TimeoutState.refresh_softAborted, TimeoutState.armClock_softAborted, hsoft, hfull, hsaved,
      decide_eq_false (Int.not_le.2 hpos), Bool.and_false, Bool.and_false, Bool.or_false]
  · exact (TimeoutState.refresh_hardAborted _ _ _).trans (TimeoutState.armClock_hardAborted _ _ _)
  · have hfrom : r.timeout.clock.remaining later =
        r.timeout.clock.remaining r.now - ((later - r.now : Nat) : Int) := by
      have hnow : (later - r.timeout.clock.armedAt : Nat) = (later - r.now) + (r.now - r.timeout.clock.armedAt) :=
        (Nat.sub_add_sub_cancel hle harmed).symm
      simp only [SliceClock.remaining, hs, hnow]
      omega
    rw [hfrom, ← hsaved]
    show SliceClock.remaining ⟨r.timeout.clock.start, r.timeout.remainingTime r.now, r.now⟩ later = _
    rw [hs]
    rfl

/-- A computer that arms what was left of its budget whenever it comes back is soft aborted once its slices together ran
for the budget, and not before. Arming what is left at once changes nothing that can be read, until the slice is started
anew with what was armed. -/
theorem budget_survives :
    (∀ {budget : Duration} {r : TimeoutRun} {turn : Turn} {ran : Nat},
      0 < budget.nanos → budget.nanos ≤ maxWord → Shares budget r turn ran →
        (turn = .running → (r.timeout.remainingTime r.now).nanos = budget.nanos - ran) ∧
        (ran < budget.nanos → ∀ share, (r.timeout.refresh share r.now).flags.softAborted = false) ∧
        (turn = .running → budget.nanos ≤ ran → ∀ share, (r.timeout.refresh share r.now).flags.softAborted = true) ∧
        (∀ left, turn = .back left → budget.nanos ≤ ran → (r.after (.arm left)).timeout.flags.softAborted = true)) ∧
    (∀ (config : TimeoutConfig) (first : Share) (earlier later : List TimeoutEvent),
      let r := (create config first).run earlier
      r.timeout.clock.start ≠ none → 0 < r.timeout.clock.remaining r.now →
        r.timeout.clock.remaining r.now ≤ maxWord → r.timeout.flags.softAborted = false → StartsAfresh later →
          ReadsAlike ((r.after (.arm (r.timeout.remainingTime r.now))).run later) (r.run later)) := by
  constructor
  · intro budget r turn ran hpos hword h
    have hbal := h.balanced hpos hword
    refine ⟨?_, fun hless share => ?_, ?_, ?_⟩
    · rintro rfl
      show clampWord _ = _
      rw [hbal.clock.remaining]
      exact clampWord_of_le (by omega)
    · exact ((h.share share).refresh.balanced hpos hword).unspent hless
    · rintro rfl hspent share
      rw [hbal.clock.refresh_softAborted, Nat.sub_eq_zero_of_le hspent]
      simp
    · rintro left rfl hspent
      obtain ⟨hleft, -, hsaved⟩ := hbal.clock
      rw [arm_softAborted hleft.started hbal.standing, hsaved]
      exact decide_eq_true (Nat.sub_eq_zero_of_le hspent)
  · intro config first earlier later r hstart hpos hword hsoft hafresh
    have hrecalls : r.Recalls config first earlier.reverse := by
      have htells := (run_tells config first earlier.reverse).1
      rwa [List.reverse_reverse] at htells
    have harmed : r.timeout.clock.armedAt ≤ r.now := by
      rw [hrecalls.armed, hrecalls.present]
      exact Past.armedAt_le_now _
    exact ((agrees_arm hstart harmed hpos hword hsoft).run hafresh).readsAlike

/-- Five seconds, spent in two slices with a second between them; and a slice whose budget is armed again after a second,
which is told by none of its readings when it ends and another begins. -/
theorem budget_survives_second :
    (∃ r : TimeoutRun, Shares (.ofMillis 5000) r .running 5000000000 ∧
      ∀ share, (r.timeout.refresh share r.now).flags.softAborted = true) ∧
    ReadsAlike
      (((create {} ⟨.ofMillis 50, true⟩).run [.start, .advance 1000000000]).after (.arm (.ofMillis 6000)) |>.run
        [.advance 2000000000, .refresh, .reset, .start])
      (((create {} ⟨.ofMillis 50, true⟩).run [.start, .advance 1000000000]).run
        [.advance 2000000000, .refresh, .reset, .start]) := by
  constructor
  · have hfirst : Shares (.ofMillis 5000) _ .running 3000000000 :=
      .run 3000000000 (.armed (create {} ⟨.ofMillis 50, true⟩) (by decide) rfl)
    have hspent : Shares (.ofMillis 5000) _ .running 5000000000 :=
      .run 2000000000 (.rearm (.resume (.wait 1000000000 (.yield hfirst))))
    exact ⟨_, hspent, (budget_survives.1 (by decide) (by decide) hspent).2.2.1 rfl (by decide)⟩
  · refine budget_survives.2 {} ⟨.ofMillis 50, true⟩ [.start, .advance 1000000000]
      [.advance 2000000000, .refresh, .reset, .start] (by decide) (by decide) (by decide) (by decide) ?_
    simp [startsAfresh_cons, TimeoutEvent.clears]

/-- What was armed is what a slice that is started anew has: six seconds, where the seven that are configured would count
anew. -/
theorem restart_tells :
    let r := (create {} ⟨.ofMillis 50, false⟩).run [.start, .advance 1000000000]
    let x := (r.after (.arm (r.timeout.remainingTime r.now))).after .start
    let y := r.after .start
    0 < r.timeout.config.timeout.nanos ∧ r.timeout.clock.start ≠ none ∧ 0 < r.timeout.clock.remaining r.now ∧
      r.timeout.clock.remaining r.now ≤ maxWord ∧ r.timeout.flags.softAborted = false ∧ x.now = y.now ∧
      x.timeout.remainingTime x.now = .ofMillis 6000 ∧ y.timeout.remainingTime y.now = .ofMillis 7000 := by
  decide

end TimeoutRun

end FairShare

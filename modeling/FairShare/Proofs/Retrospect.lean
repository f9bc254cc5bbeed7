import FairShare.Proofs.Flags
import FairShare.Timeout.Run

/-!
# What the flags tell of the past

The flags of a timeout as a function of what happened to it. A past is a list of events, the latest first, and what is
asked of it is answered without the timeout: when the slice began, which budget was armed and when, what the share was.
A flag is up exactly when something happened that raises it and nothing came after that which takes it down.
-/

namespace FairShare

namespace TimeoutEvent

/-- The time that an event takes. -/
def passes : TimeoutEvent → Nat
  | .advance nanos => nanos
  | _ => 0

/-- Whether the clock is compared with the share and the budget, by itself or as the last part of something else. -/
def refreshes : TimeoutEvent → Bool
  | .start | .refresh | .arm _ => true
  | _ => false

/-- Whether an event takes the paused flag and the soft abort down. -/
def clears : TimeoutEvent → Bool
  | .arm _ | .reset => true
  | _ => false

end TimeoutEvent

/-- What happened to a timeout so far, the latest first. -/
abbrev Past := List TimeoutEvent

namespace Past

/-- The present, in nanoseconds since the timeout was created. -/
def now : Past → Nat
  | [] => 0
  | e :: past => now past + e.passes

/-- The share that was set last. -/
def share (first : Share) : Past → Share
  | [] => first
  | .share share :: _ => share
  | _ :: past => share first past

/-- When the slice began: at the last start, unless a reset came after it. -/
def sliceStart : Past → Option Nat
  | [] => none
  | .start :: past => some (now past)
  | .reset :: _ => none
  | _ :: past => sliceStart past

/-- The budget that was armed last, unless a reset came after it. -/
def budget (config : TimeoutConfig) : Past → Duration
  | [] => config.timeout
  | .arm budget :: _ => budget
  | .reset :: _ => config.timeout
  | _ :: past => budget config past

/-- From when the budget counts: from the last start or arming. -/
def armedAt : Past → Nat
  | [] => 0
  | .start :: past | .arm _ :: past => now past
  | _ :: past => armedAt past

/-- The hard abort was raised, and no reset came after that. -/
def HardAborted (past : Past) : Prop :=
  ∃ recent older, past = recent ++ .hardAbort :: older ∧ .reset ∉ recent

/-- A refresh found something, and neither an arming nor a reset came after that. -/
def Found (p : Past → Prop) (past : Past) : Prop :=
  ∃ recent e older, past = recent ++ e :: older ∧ e.refreshes = true ∧ (∀ x ∈ recent, x.clears = false) ∧
    p (e :: older)

/-- The budget of the slice is used up. -/
def Exhausted (config : TimeoutConfig) (past : Past) : Prop :=
  sliceStart past ≠ none ∧ armedAt past + (budget config past).nanos ≤ now past

/-- Others wait, and the slice has run for its share. -/
def OverShare (first : Share) (past : Past) : Prop :=
  (share first past).contended = true ∧
    ∃ start, sliceStart past = some start ∧ start + (share first past).period.nanos ≤ now past

theorem hardAborted_cons {e : TimeoutEvent} {past : Past} :
    HardAborted (e :: past) ↔ e = .hardAbort ∨ e ≠ .reset ∧ HardAborted past := by
  constructor
  · rintro ⟨recent, older, h, hr⟩
    cases recent with
    | nil => exact Or.inl (List.cons.inj h).1
    | cons x recent =>
      obtain ⟨rfl, rfl⟩ := List.cons.inj h
      simp only [List.mem_cons, not_or] at hr
      exact Or.inr ⟨Ne.symm hr.1, recent, older, rfl, hr.2⟩
  · rintro (rfl | ⟨he, recent, older, rfl, hr⟩)
    · exact ⟨[], past, rfl, by simp⟩
    · exact ⟨e :: recent, older, rfl, by simp [Ne.symm he, hr]⟩

theorem found_cons {p : Past → Prop} {e : TimeoutEvent} {past : Past} :
    Found p (e :: past) ↔ e.refreshes = true ∧ p (e :: past) ∨ e.clears = false ∧ Found p past := by
  constructor
  · rintro ⟨recent, x, older, h, hx, hr, hp⟩
    cases recent with
    | nil =>
      obtain ⟨rfl, rfl⟩ := List.cons.inj h
      exact Or.inl ⟨hx, hp⟩
    | cons y recent =>
      obtain ⟨rfl, rfl⟩ := List.cons.inj h
      rw [List.forall_mem_cons] at hr
      exact Or.inr ⟨hr.1, recent, x, older, rfl, hx, hr.2, hp⟩
  · rintro (⟨he, hp⟩ | ⟨he, recent, x, older, rfl, hx, hr, hp⟩)
    · exact ⟨[], e, past, rfl, he, by simp, hp⟩
    · exact ⟨e :: recent, x, older, rfl, hx, List.forall_mem_cons.2 ⟨he, hr⟩, hp⟩

theorem armedAt_le_now (past : Past) : armedAt past ≤ now past := by
  induction past with
  | nil => exact Nat.le_refl _
  | cons e past ih => cases e <;> simp only [armedAt, now] <;> omega

theorem sliceStart_le_now {past : Past} {start : Nat} (h : sliceStart past = some start) : start ≤ now past := by
  induction past with
  | nil => cases h
  | cons e past ih =>
    cases e with
    | start => exact Nat.le_trans (Nat.le_of_eq (Option.some.inj h).symm) (Nat.le_add_right _ _)
    | reset => cases h
    | _ => exact Nat.le_trans (ih h) (Nat.le_add_right _ _)

end Past

namespace TimeoutRun

open Past

/-- The readings of a timeout and of its surroundings are those of its past. -/
structure Recalls (r : TimeoutRun) (config : TimeoutConfig) (first : Share) (past : Past) : Prop where
  settings : r.timeout.config = config
  present : r.now = past.now
  shared : r.share = past.share first
  started : r.timeout.clock.start = past.sliceStart
  budgeted : r.timeout.clock.budget = past.budget config
  armed : r.timeout.clock.armedAt = past.armedAt

variable {r : TimeoutRun} {config : TimeoutConfig} {first : Share} {past : Past}

theorem create_recalls (config : TimeoutConfig) (first : Share) : (create config first).Recalls config first [] :=
  ⟨rfl, rfl, rfl, rfl, rfl, rfl⟩

theorem Recalls.after (h : r.Recalls config first past) (e : TimeoutEvent) :
    (r.after e).Recalls config first (e :: past) := by
  obtain ⟨hconfig, hnow, hshare, hstart, hbudget, harmed⟩ := h
  cases e with
  | start => exact ⟨hconfig, hnow, hshare, congrArg some hnow, hbudget, hnow⟩
  | arm budget => exact ⟨hconfig, hnow, hshare, hstart, rfl, hnow⟩
  | reset => exact ⟨hconfig, hnow, hshare, rfl, congrArg TimeoutConfig.timeout hconfig, harmed⟩
  | advance nanos => exact ⟨hconfig, congrArg (· + nanos) hnow, hshare, hstart, hbudget, harmed⟩
  | share share => exact ⟨hconfig, hnow, rfl, hstart, hbudget, harmed⟩
  | _ => exact ⟨hconfig, hnow, hshare, hstart, hbudget, harmed⟩

/-- A refresh raises the soft abort once the budget of the slice is used up. -/
theorem Recalls.refresh_softAborted (h : r.Recalls config first past) :
    (r.timeout.refresh r.share r.now).flags.softAborted = true ↔
      r.timeout.flags.softAborted = true ∨ Exhausted config past := by
  have hle := armedAt_le_now past
  unfold Exhausted
  rw [← h.started]
  cases hs : r.timeout.clock.start with
  | none => simp [TimeoutState.refresh_of_none _ _ _ hs]
  | some start =>
    have hdue : (past.budget config).nanos ≤ past.now - past.armedAt ↔
        past.armedAt + (past.budget config).nanos ≤ past.now := by omega
    simp [TimeoutState.refresh_flags _ _ _ hs, h.budgeted, h.armed, h.present, hdue]

/-- A refresh raises the paused flag once the slice has run for its share, when others wait. -/
theorem Recalls.refresh_paused (h : r.Recalls config first past) :
    (r.timeout.refresh r.share r.now).flags.paused = true ↔
      r.timeout.flags.paused = true ∨ OverShare first past := by
  unfold OverShare
  cases hs : past.sliceStart with
  | none => simp [TimeoutState.refresh_of_none _ _ _ (h.started.trans hs)]
  | some start =>
    have hle := sliceStart_le_now hs
    have hdue : (past.share first).period.nanos ≤ past.now - start ↔
        start + (past.share first).period.nanos ≤ past.now := by omega
    simp [TimeoutState.refresh_flags _ _ _ (h.started.trans hs), h.shared, h.present, hdue]

/-- A timeout tells its past by its flags. -/
structure Tells (r : TimeoutRun) (config : TimeoutConfig) (first : Share) (past : Past) : Prop where
  hardAborted : r.timeout.flags.hardAborted = true ↔ HardAborted past
  softAborted : r.timeout.flags.softAborted = true ↔ HardAborted past ∨ Found (Exhausted config) past
  paused : r.timeout.flags.paused = true ↔ Found (OverShare first) past

theorem create_tells (config : TimeoutConfig) (first : Share) : (create config first).Tells config first [] := by
  constructor <;> simp [create, TimeoutState.create, HardAborted, Found]

/-- Past an event that compares the clock, the flags are those that were left when it came to do so, and what it
found. -/
theorem tells_of_refresh {e : TimeoutEvent} (he : e.refreshes = true) {x : TimeoutState}
    (hx : ({ r with timeout := x } : TimeoutRun).Recalls config first (e :: past))
    (hafter : (r.after e).timeout = x.refresh r.share r.now)
    (hhard : x.flags.hardAborted = true ↔ HardAborted past)
    (hsoft : x.flags.softAborted = true ↔
      HardAborted past ∨ e.clears = false ∧ Found (Exhausted config) past)
    (hpaused : x.flags.paused = true ↔ e.clears = false ∧ Found (OverShare first) past) :
    (r.after e).Tells config first (e :: past) := by
  have hraises : HardAborted (e :: past) ↔ HardAborted past := by
    rw [hardAborted_cons]
    cases e <;> simp_all [TimeoutEvent.refreshes]
  constructor
  · rw [hafter, TimeoutState.refresh_hardAborted, hhard, hraises]
  · rw [hafter, hx.refresh_softAborted, hsoft, hraises, found_cons, he, or_assoc, or_comm (a := _ ∧ _)]
    simp
  · rw [hafter, hx.refresh_paused, hpaused, found_cons, he, or_comm]
    simp

theorem Tells.after (h : r.Tells config first past) (hr : r.Recalls config first past) (e : TimeoutEvent) :
    (r.after e).Tells config first (e :: past) := by
  obtain ⟨hhard, hsoft, hpaused⟩ := h
  have hidle : e.refreshes = false → e.clears = false → e ≠ .hardAbort → (r.after e).timeout = r.timeout →
      (r.after e).Tells config first (e :: past) := by
    intro hre hcl hne hsame
    have hraises : HardAborted (e :: past) ↔ HardAborted past := by
      rw [hardAborted_cons]
      cases e <;> simp_all [TimeoutEvent.clears]
    constructor
    · rw [hsame, hhard, hraises]
    · rw [hsame, hsoft, hraises, found_cons, hre, hcl]
      simp
    · rw [hsame, hpaused, found_cons, hre, hcl]
      simp
  cases e with
  | start =>
    refine tells_of_refresh rfl (x := r.timeout.startClock r.now) ?_ rfl hhard ?_ ?_
    · exact ⟨hr.settings, hr.present, hr.shared, congrArg some hr.present, hr.budgeted, hr.present⟩
    · simpa [TimeoutEvent.clears] using hsoft
    · simpa [TimeoutEvent.clears] using hpaused
  | refresh =>
    refine tells_of_refresh rfl (x := r.timeout) ?_ rfl hhard ?_ ?_
    · exact ⟨hr.settings, hr.present, hr.shared, hr.started, hr.budgeted, hr.armed⟩
    · simpa [TimeoutEvent.clears] using hsoft
    · simpa [TimeoutEvent.clears] using hpaused
  | arm budget =>
    refine tells_of_refresh rfl (x := r.timeout.armClock budget r.now) ?_ rfl ?_ ?_ ?_
    · exact ⟨hr.settings, hr.present, hr.shared, hr.started, rfl, hr.present⟩
    · rw [TimeoutState.armClock_hardAborted, hhard]
    · -- What held the soft abort up but for a hard abort is forgotten.
      have hkept : HardAborted past → HardAborted past ∨ Found (Exhausted config) past := Or.inl
      rw [TimeoutState.armClock_softAborted, Bool.and_eq_true, hhard, hsoft]
      simpa [TimeoutEvent.clears] using hkept
    · simp [TimeoutEvent.clears]
  | hardAbort =>
    constructor
    · simp [TimeoutRun.after, hardAborted_cons]
    · simp [TimeoutRun.after, hardAborted_cons]
    · simp [TimeoutRun.after, found_cons, TimeoutEvent.refreshes, TimeoutEvent.clears, hpaused]
  | reset =>
    constructor <;>
      simp [TimeoutRun.after, hardAborted_cons, found_cons, TimeoutEvent.refreshes, TimeoutEvent.clears]
  | advance nanos => exact hidle rfl rfl (by simp) rfl
  | share share => exact hidle rfl rfl (by simp) rfl

theorem run_tells (config : TimeoutConfig) (first : Share) (past : Past) :
    ((create config first).run past.reverse).Recalls config first past ∧
      ((create config first).run past.reverse).Tells config first past := by
  induction past with
  | nil => exact ⟨create_recalls config first, create_tells config first⟩
  | cons e past ih =>
    have hrun : (create config first).run (e :: past).reverse = ((create config first).run past.reverse).after e := by
      simp [run]
    rw [hrun]
    exact ⟨ih.1.after e, ih.2.after ih.1 e⟩

/-- The flags of a timeout, and what a computer that polls them learns, are functions of what happened to it since it
was created. -/
theorem run_flags_iff (config : TimeoutConfig) (first : Share) (events : List TimeoutEvent) :
    let past : Past := events.reverse
    let flags := ((create config first).run events).timeout.flags
    (flags.hardAborted = true ↔ HardAborted past) ∧
      (flags.softAborted = true ↔ HardAborted past ∨ Found (Exhausted config) past) ∧
      (flags.paused = true ↔ Found (OverShare first) past) ∧
      (flags.check = .error .hard ↔ HardAborted past) ∧
      (flags.check = .error .soft ↔ ¬HardAborted past ∧ Found (Exhausted config) past) ∧
      (flags.check = .ok () ↔ ¬HardAborted past ∧ ¬Found (Exhausted config) past) := by
  intro past flags
  obtain ⟨hhard, hsoft, hpaused⟩ := (run_tells config first past).2
  rw [List.reverse_reverse] at hhard hsoft hpaused
  refine ⟨hhard, hsoft, hpaused, ?_, ?_, ?_⟩
  · rw [Flags.check_hard, hhard]
  · rw [Flags.check_soft, ← Bool.not_eq_true, hhard, hsoft]
    grind
  · rw [Flags.check_ok, ← Bool.not_eq_true, ← Bool.not_eq_true, hhard, hsoft]
    grind

end TimeoutRun

end FairShare

import FairShare.Timeout.Callers

/-!
# Flags between two stores

Whoever polls the flags of a timeout sees them between any two stores of the threads that use it. A hard abort is seen
only together with the soft abort that it implies, and it stays in sight until a reset takes it down. What a thread that
holds the lock still has to store says enough of the stores to come, as nobody else stores before it lets go.
-/

namespace FairShare

/-- A hard abort shows together with the soft abort that it implies. -/
def Flags.Ordered (f : Flags) : Prop := f.hardAborted = true → f.softAborted = true

/-- The flags stay ordered through some stores; only a reset takes the hard abort down, and the soft abort stays up for
as long as the hard abort is. -/
def Flags.Steady (resets : Prop) : Flags → List Flags.Store → Prop
  | _, [] => True
  | f, store :: rest =>
    ((f.apply store).Ordered ∧
      (f.hardAborted = true → (f.apply store).softAborted = true ∧ (¬resets → (f.apply store).hardAborted = true))) ∧
    Flags.Steady resets (f.apply store) rest

namespace SharedTimeout

variable {s : SharedTimeout}

/-- What a part under the lock stores keeps the flags steady. -/
theorem locked_steady {t : TimeoutState} (h : t.flags.Ordered) {task : TimeoutTask} {now : Instant} {part : LockedPart}
    (hp : task.locked t now = some part) : t.flags.Steady (task = .begin .reset) part.stores := by
  cases task with
  | idle => cases hp
  | refreshWith share => cases hp
  | inside => cases hp
  | startAt moment =>
    cases hp
    trivial
  | refreshAt share moment =>
    cases hp
    -- A refresh only raises, and it does not touch the hard abort.
    show t.flags.Steady _ (t.refreshStores share moment)
    unfold TimeoutState.refreshStores
    split
    · trivial
    · split <;> split <;> simp_all [Flags.Steady, Flags.Ordered, Flags.apply]
  | begin call =>
    cases call with
    | start => cases hp
    | refresh => cases hp
    | arm budget =>
      cases hp
      show t.flags.Steady _ t.armStores
      unfold TimeoutState.armStores
      split <;> simp_all [Flags.Steady, Flags.Ordered, Flags.apply]
    | hardAbort =>
      cases hp
      simp [Flags.Steady, Flags.Ordered, Flags.apply, TimeoutState.hardAbortStores]
    | reset =>
      cases hp
      simp_all [Flags.Steady, Flags.Ordered, Flags.apply, TimeoutState.resetStores]

/-- What one action does to the flags and to who holds the lock. -/
inductive Goes (s : SharedTimeout) : SharedTimeout → Prop
  /-- Nothing. -/
  | quiet {s'} (flags : s'.timeout.flags = s.timeout.flags) (holder : s'.holder = s.holder) : Goes s s'
  /-- A thread takes the lock for a part. -/
  | enter {s'} (caller : Nat) (task : TimeoutTask) (part : LockedPart) (free : s.holder = none)
    (locked : task.locked s.timeout s.now = some part) (flags : s'.timeout.flags = s.timeout.flags)
    (holder : s'.holder = some ⟨caller, task, part.stores⟩) : Goes s s'
  /-- The thread that holds the lock makes one store. -/
  | store {s'} (holder : LockHolder) (store : Flags.Store) (rest : List Flags.Store)
    (holds : s.holder = some holder) (pending : holder.pending = store :: rest)
    (flags : s'.timeout.flags = s.timeout.flags.apply store)
    (keeps : s'.holder = some { holder with pending := rest }) : Goes s s'
  /-- It lets go. -/
  | leave {s'} (flags : s'.timeout.flags = s.timeout.flags) (free : s'.holder = none) : Goes s s'

/-- No action makes more than one store. -/
theorem act_goes (s : SharedTimeout) (a : TimeoutAction) : Goes s (s.act a) := by
  cases a with
  | call caller call =>
    simp only [act]
    split <;> exact .quiet rfl rfl
  | advance nanos => exact .quiet rfl rfl
  | share share => exact .quiet rfl rfl
  | step caller =>
    show Goes s (s.step caller)
    unfold step
    cases hh : s.holder with
    | none =>
      dsimp only
      split
      · next part hp => exact .enter caller (s.tasks caller) part hh hp rfl rfl
      · exact .quiet rfl rfl
    | some holder =>
      dsimp only
      split
      · unfold proceed
        split
        · next store rest hpend => exact .store holder store rest hh hpend rfl rfl
        · exact .leave rfl rfl
      · exact .quiet rfl rfl

/-- The flags are ordered, and so they stay through the stores to come. -/
structure Sound (s : SharedTimeout) : Prop where
  ordered : s.timeout.flags.Ordered
  steady : ∀ holder, s.holder = some holder → s.timeout.flags.Steady (holder.task = .begin .reset) holder.pending

theorem create_sound (config : TimeoutConfig) (share : Share) : (create config share).Sound :=
  ⟨nofun, nofun⟩

theorem Sound.act (h : s.Sound) (a : TimeoutAction) : (s.act a).Sound := by
  rcases act_goes s a with ⟨hf, hh⟩ | ⟨caller, task, part, hfree, hp, hf, hh⟩ |
    ⟨holder, store, rest, hh, hpend, hf, hkeep⟩ | ⟨hf, hfree⟩
  · refine ⟨hf ▸ h.ordered, fun holder hholds => ?_⟩
    rw [hf]
    exact h.steady holder (hh ▸ hholds)
  · refine ⟨hf ▸ h.ordered, fun holder hholds => ?_⟩
    obtain rfl := Option.some.inj (hh.symm.trans hholds)
    rw [hf]
    exact locked_steady h.ordered hp
  · have hsteady := h.steady holder hh
    rw [hpend] at hsteady
    refine ⟨hf ▸ hsteady.1.1, fun x hx => ?_⟩
    obtain rfl := Option.some.inj (hkeep.symm.trans hx)
    rw [hf]
    exact hsteady.2
  · refine ⟨hf ▸ h.ordered, fun holder hholds => ?_⟩
    rw [hfree] at hholds
    cases hholds

theorem run_sound (config : TimeoutConfig) (share : Share) (actions : List TimeoutAction) :
    ((create config share).run actions).Sound := by
  suffices h : ∀ s : SharedTimeout, s.Sound → (s.run actions).Sound from h _ (create_sound config share)
  induction actions with
  | nil => exact fun _ h => h
  | cons a actions ih => exact fun s h => ih _ (h.act a)

/-- An action leaves the soft abort up under a hard abort, and only a reset takes the hard abort down. -/
theorem Sound.keeps (h : s.Sound) (hard : s.timeout.flags.hardAborted = true) (a : TimeoutAction) :
    (s.act a).timeout.flags.softAborted = true ∧
      (¬s.Resetting → (s.act a).timeout.flags.hardAborted = true) := by
  have hsame : (s.act a).timeout.flags = s.timeout.flags →
      (s.act a).timeout.flags.softAborted = true ∧
        (¬s.Resetting → (s.act a).timeout.flags.hardAborted = true) := by
    intro hf
    rw [hf]
    exact ⟨h.ordered hard, fun _ => hard⟩
  rcases act_goes s a with ⟨hf, -⟩ | ⟨-, -, -, -, -, hf, -⟩ | ⟨holder, store, rest, hh, hpend, hf, -⟩ | ⟨hf, -⟩
  · exact hsame hf
  · exact hsame hf
  · have hsteady := h.steady holder hh
    rw [hpend] at hsteady
    obtain ⟨hsoft, hhard⟩ := hsteady.1.2 hard
    rw [hf]
    exact ⟨hsoft, fun hno => hhard fun hreset => hno ⟨holder, hh, hreset⟩⟩
  · exact hsame hf

/-- A hard abort outlasts every stretch of actions in which no reset has the lock. -/
theorem Sound.lasts (h : s.Sound) (hard : s.timeout.flags.hardAborted = true) (more : List TimeoutAction)
    (hno : ∀ before a after, more = before ++ a :: after → ¬(s.run before).Resetting) :
    (s.run more).timeout.flags.hardAborted = true := by
  induction more generalizing s with
  | nil => exact hard
  | cons a more ih =>
    refine ih (h.act a) ((h.keeps hard a).2 (hno [] a more rfl)) fun before b after hmore => ?_
    exact hno (a :: before) b after (congrArg (a :: ·) hmore)

/-- Whoever polls the flags of a timeout finds no hard abort without the soft abort that it implies, whatever the
threads are at that use it. Nothing takes the soft abort down under a hard abort, and nothing but a reset takes the hard
abort down: between two resets it stays up. -/
theorem run_hard_implies_soft (config : TimeoutConfig) (share : Share) (actions : List TimeoutAction) :
    let s := (create config share).run actions
    (s.timeout.flags.hardAborted = true → s.timeout.flags.softAborted = true) ∧
      (s.timeout.flags.hardAborted = true → ∀ a, (s.act a).timeout.flags.softAborted = true) ∧
      (s.timeout.flags.hardAborted = true → ∀ a, ¬s.Resetting → (s.act a).timeout.flags.hardAborted = true) ∧
      (s.timeout.flags.hardAborted = true → ∀ more,
        (∀ before a after, more = before ++ a :: after → ¬(s.run before).Resetting) →
          (s.run more).timeout.flags.hardAborted = true ∧ (s.run more).timeout.flags.softAborted = true) := by
  intro s
  have hsound : s.Sound := run_sound config share actions
  refine ⟨hsound.ordered, fun hard a => (hsound.keeps hard a).1, fun hard a => (hsound.keeps hard a).2,
    fun hard more hno => ?_⟩
  have hlast := hsound.lasts hard more hno
  refine ⟨hlast, ?_⟩
  have hmore : s.run more = (create config share).run (actions ++ more) := (List.foldl_append ..).symm
  rw [hmore] at hlast ⊢
  exact (run_sound config share _).ordered hlast

/-- Between the last two stores of a reset only the soft abort is up. -/
example :
    ((create {} ⟨.ofMillis 0, false⟩).run ([.call 0 .hardAbort] ++ .replicate 4 (.step 0) ++
      [.call 1 .reset] ++ .replicate 3 (.step 1))).timeout.flags = { softAborted := true } := by
  decide

/-! ### A call that is left alone -/

/-- One thread alone gets from one state to the other. -/
def Alone (caller : Nat) (s s' : SharedTimeout) : Prop := ∃ n, s.run (List.replicate n (.step caller)) = s'

theorem Alone.trans {caller : Nat} {s s' s'' : SharedTimeout} (h : Alone caller s s') (h' : Alone caller s' s'') :
    Alone caller s s'' := by
  obtain ⟨n, rfl⟩ := h
  obtain ⟨m, rfl⟩ := h'
  refine ⟨n + m, ?_⟩
  rw [← List.replicate_append_replicate]
  exact List.foldl_append

@[simp] theorem assign_task (s : SharedTimeout) (caller : Nat) (task : TimeoutTask) :
    (s.assign caller task).tasks caller = task := if_pos rfl

@[simp] theorem assign_assign (s : SharedTimeout) (caller : Nat) (task task' : TimeoutTask) :
    (s.assign caller task).assign caller task' = s.assign caller task' := by
  unfold assign
  congr 1
  funext i
  dsimp only
  split <;> rfl

theorem assign_self {caller : Nat} {task : TimeoutTask} (h : s.tasks caller = task) : s.assign caller task = s := by
  unfold assign
  have hsame : (fun i => if i = caller then task else s.tasks i) = s.tasks := by
    funext i
    split
    · next hi => rw [hi, h]
    · rfl
  rw [hsame]

/-- The thread that holds the lock makes all its stores, and lets go. -/
theorem alone_proceed {caller : Nat} {task : TimeoutTask} {pending : List Flags.Store}
    (h : s.holder = some ⟨caller, task, pending⟩) :
    Alone caller s
      (({ s with timeout := s.timeout.store pending, holder := none } : SharedTimeout).assign caller task.next) := by
  induction pending generalizing s with
  | nil =>
    refine ⟨1, ?_⟩
    show s.step caller = _
    unfold step
    rw [h]
    exact if_pos rfl
  | cons store rest ih =>
    have hstore : s.step caller =
        { s with timeout := s.timeout.store [store], holder := some ⟨caller, task, rest⟩ } := by
      unfold step
      rw [h]
      exact if_pos rfl
    exact Alone.trans ⟨1, hstore⟩ (ih rfl)

/-- A part under the lock is done as a whole. -/
theorem alone_locked {caller : Nat} (task : TimeoutTask) {part : LockedPart} (hfree : s.holder = none)
    (hp : task.locked s.timeout s.now = some part) :
    Alone caller (s.assign caller task)
      (({ s with timeout := { s.timeout with clock := part.clock }.store part.stores } : SharedTimeout).assign caller
        task.next) := by
  have henter : (s.assign caller task).step caller = (s.assign caller task).enter caller part := by
    unfold step
    rw [assign_task, show (s.assign caller task).holder = none from hfree]
    dsimp only
    rw [show task.locked (s.assign caller task).timeout (s.assign caller task).now = some part from hp]
  have hleave : Alone caller ((s.assign caller task).enter caller part)
      ((((({ s with
        timeout := { s.timeout with clock := part.clock }.store part.stores
        holder := none } : SharedTimeout).assign caller task).assign caller .inside)).assign caller
          ((s.assign caller task).tasks caller).next) := alone_proceed rfl
  rw [assign_assign, assign_assign, assign_task, ← hfree] at hleave
  exact Alone.trans ⟨1, henter⟩ hleave

/-- What is only read is read in one step. -/
theorem alone_read {caller : Nat} (task : TimeoutTask) (hfree : s.holder = none)
    (hp : task.locked s.timeout s.now = none) :
    Alone caller (s.assign caller task) (s.assign caller (task.read s.share s.now)) := by
  refine ⟨1, ?_⟩
  show (s.assign caller task).step caller = _
  unfold step
  rw [assign_task, show (s.assign caller task).holder = none from hfree]
  dsimp only
  rw [show task.locked (s.assign caller task).timeout (s.assign caller task).now = none from hp]
  show (s.assign caller task).assign caller (((s.assign caller task).tasks caller).read s.share s.now) = _
  rw [assign_task, assign_assign]

/-- The refresh that a call consists of or ends with. -/
theorem alone_refresh {caller : Nat} (hfree : s.holder = none) :
    Alone caller (s.assign caller (.begin .refresh))
      (({ s with timeout := s.timeout.refresh s.share s.now } : SharedTimeout).assign caller .idle) :=
  ((alone_read (.begin .refresh) hfree rfl).trans (alone_read (.refreshWith s.share) hfree rfl)).trans
    (alone_locked (.refreshAt s.share s.now) hfree rfl)

/-- A call that no other thread disturbs is one event of the timeout. -/
theorem alone_call {caller : Nat} (hfree : s.holder = none) (hidle : s.tasks caller = .idle) (call : TimeoutCall) :
    Alone caller (s.act (.call caller call))
      { s with timeout := ((⟨s.timeout, s.share, s.now⟩ : TimeoutRun).after call.event).timeout } := by
  have hcall : s.act (.call caller call) = s.assign caller (.begin call) := by
    simp only [act, hidle]
  have hhome (t : TimeoutState) :
      ({ s with timeout := t } : SharedTimeout).assign caller .idle = { s with timeout := t } := assign_self hidle
  rw [hcall, ← hhome]
  cases call with
  | start =>
    exact ((alone_read (.begin .start) hfree rfl).trans (alone_locked (.startAt s.now) hfree rfl)).trans
      (alone_refresh (s := { s with timeout := s.timeout.startClock s.now }) hfree)
  | refresh => exact alone_refresh hfree
  | arm budget =>
    exact (alone_locked (.begin (.arm budget)) hfree rfl).trans
      (alone_refresh (s := { s with timeout := s.timeout.armClock budget s.now }) hfree)
  | hardAbort => exact alone_locked (.begin .hardAbort) hfree rfl
  | reset => exact alone_locked (.begin .reset) hfree rfl

end SharedTimeout

end FairShare

import FairShare.Proofs.Observations

/-!
# What is on record of reports

Whether a worker is reported depends on what the log keeps and on when the worker was last reported, and what comes of a
report is told by three kinds of events. Only two instructions have to do with that: the one that decides whether an overrun
is reported, and the one that reports it. Everything else leaves the record alone, whatever the state.
-/

namespace FairShare.Scheduler

variable {n : Nat}

/-- Whether an event tells of a report: the computer is asked what it is doing, it fails to say, or its overrun is
reported. -/
def Event.isReport : Event n → Bool
  | .called _ callback | .reported (.callbackFailed _ callback _) => callback = .writeState
  | .reported (.timedOut ..) => true
  | _ => false

/-- Whether an instruction has to do with reports, whatever the state. -/
def Instr.reports : Instr n → Bool
  | .report .. | .writeReport .. => true
  | .callHost _ callback => callback = .writeState
  | _ => false

/-- What is told of a report: the computer is asked what it is doing, and whether it fails to say so or not, the overrun is
reported. -/
def Host.reportEvents (host : Host) (e : Fin n) (overrun : Duration) (thread : String) : List (Event n) :=
  .called e .writeState :: (host.failure .writeState).toList.map (fun reason =>
    .reported (.callbackFailed host.computer .writeState reason)) ++
    [.reported (.timedOut host.computer overrun thread
      (if (host.failure .writeState).isSome then "" else host.details))]

/-- What is on record of reports. -/
structure Minutes (n : Nat) where
  /-- Which notices the log keeps. -/
  log : LogFilter
  /-- When each worker was last reported. -/
  last : WorkerId → Option Instant
  /-- What was told of reports. -/
  told : List (Event n)

namespace Pool

/-- When a worker was last reported. -/
def lastReport? (s : Pool n) (w : WorkerId) : Option Instant := (s.workers[w]?).bind (·.lastReport)

/-- What is on record of reports. -/
def minutes (s : Pool n) : Minutes n := ⟨s.log, s.lastReport?, s.history.toList.filter Event.isReport⟩

theorem minutes_emit (s : Pool n) {v : Event n} (hv : v.isReport = false) : (s.emit v).minutes = s.minutes := by
  have htold : (s.emit v).history.toList.filter Event.isReport = s.history.toList.filter Event.isReport := by
    simp [toList_emit, hv]
  exact congrArg (Minutes.mk s.log s.lastReport?) htold

/-- Whatever changes besides the log and the workers is not on record, if one event is told that does not tell of a
report. -/
theorem minutes_noted (s s' : Pool n) (v : Event n) (hv : v.isReport = false)
    (hhistory : s'.history = s.history.push v) (hlog : s'.log = s.log) (hworkers : s'.workers = s.workers) :
    s'.minutes = s.minutes := by
  have hsame : s'.minutes = (s.emit v).minutes := by
    unfold minutes lastReport?
    rw [hhistory, hlog, hworkers]
    rfl
  exact hsame.trans (s.minutes_emit hv)

theorem lastReport?_modifyWorker (s : Pool n) (w w' : WorkerId) (f : Worker n → Worker n) :
    (s.modifyWorker w f).lastReport? w' =
      if w = w' then (s.workers[w']?).bind fun worker => (f worker).lastReport else s.lastReport? w' := by
  unfold lastReport? modifyWorker
  simp only [List.getElem?_modify]
  split <;> cases s.workers[w']? <;> rfl

/-- A change of a worker that leaves alone when it was last reported. -/
theorem minutes_modifyWorker (s : Pool n) (w : WorkerId) {f : Worker n → Worker n}
    (hf : ∀ worker, (f worker).lastReport = worker.lastReport) : (s.modifyWorker w f).minutes = s.minutes := by
  have hlast : (s.modifyWorker w f).lastReport? = s.lastReport? := by
    funext w'
    rw [lastReport?_modifyWorker]
    simp only [hf]
    exact ite_self _
  exact congrArg (fun last => Minutes.mk s.log last (s.history.toList.filter Event.isReport)) hlast

/-- A worker that was just started was never reported. -/
theorem minutes_spawnWorker (s : Pool n) (slot : Nat) : (s.spawnWorker slot).minutes = s.minutes := by
  have hlast : (s.spawnWorker slot).lastReport? = s.lastReport? := by
    funext w
    show ((s.workers ++ [({ slot } : Worker n)])[w]?).bind (·.lastReport) = (s.workers[w]?).bind (·.lastReport)
    rw [List.getElem?_append]
    split
    · rfl
    · rename_i hnew
      rw [List.getElem?_eq_none (Nat.le_of_not_lt hnew), List.getElem?_singleton]
      split <;> rfl
  exact congrArg (fun last => Minutes.mk s.log last (s.history.toList.filter Event.isReport)) hlast

/-! ## Parts of instructions -/

theorem minutes_foldl_metrics (s : Pool n) (notes : List Metrics.Note) :
    (notes.foldl (fun s note => s.emit (.metrics note)) s).minutes = s.minutes := by
  induction notes generalizing s with
  | nil => rfl
  | cons note notes ih => rw [List.foldl_cons, ih, minutes_emit _ rfl]

theorem minutes_observe (s : Pool n) (e : Fin n) (o : Metrics.Observation) : (s.observe e o).minutes = s.minutes := by
  unfold observe
  simp only
  split
  · rw [minutes_foldl_metrics]
    exact minutes_noted s _ (.observed e o) rfl rfl rfl rfl
  · exact s.minutes_emit rfl

theorem minutes_announce (s : Pool n) (e : Fin n) : (s.announce e).minutes = s.minutes := by
  unfold announce
  simp only
  rw [minutes_foldl_metrics]
  exact minutes_noted s _ (.announced e) rfl rfl rfl rfl

theorem minutes_callHost (s : Pool n) (e : Fin n) {callback : Callback} (h : callback ≠ .writeState) :
    (s.callHost e callback).minutes = s.minutes := by
  have hemit : ∀ (s : Pool n) (v : Event n), v.isReport = decide (callback = .writeState) →
      (s.emit v).minutes = s.minutes := fun s _ hv => s.minutes_emit (hv.trans (decide_eq_false h))
  unfold callHost
  simp only
  split
  · exact (hemit _ _ rfl).trans (hemit s _ rfl)
  · exact hemit s _ rfl

theorem minutes_handle (s : Pool n) (e : Fin n) (result : WorkResult) : (s.handle e result).1.minutes = s.minutes := by
  have hfail : ∀ (notice : Notice) (reason : String), (Event.reported notice : Event n).isReport = false →
      ((s.report notice).recordError e reason).minutes = s.minutes := fun notice _ hv =>
    minutes_noted s _ (.reported notice) hv rfl rfl rfl
  unfold handle
  cases result with
  | ok => rfl
  | error error =>
    simp only
    split <;> exact hfail _ _ rfl
  | crashed reason => exact hfail _ _ rfl

theorem minutes_press (s : Pool n) (w : WorkerId) (e : Fin n) (overrun : Duration) :
    (s.press w e overrun).1.minutes = s.minutes := by
  have hinterrupt : (s.interruptIfRunning w e).1.minutes = s.minutes := by
    unfold interruptIfRunning
    split
    · exact (minutes_emit _ rfl).trans (s.minutes_modifyWorker w fun _ => rfl)
    · rfl
  unfold press
  generalize s.interruptIfRunning w e = r at hinterrupt
  obtain ⟨s', up⟩ := r
  simp only
  split
  · cases up <;> exact hinterrupt
  · rfl

theorem minutes_pop (s : Pool n) (q : List (Entry n)) : (s.pop q).1.minutes = s.minutes := by
  induction q generalizing s with
  | nil => rfl
  | cons head rest ih =>
    unfold pop
    simp only
    split
    · rfl
    · exact ih s
    · exact (ih _).trans (s.minutes_emit rfl)

theorem minutes_take (s : Pool n) (w : WorkerId) : (s.take w).1.minutes = s.minutes := by
  have hpop := s.minutes_pop s.queue
  unfold take
  generalize s.pop s.queue = r at hpop
  obtain ⟨s', found⟩ := r
  cases found with
  | some e =>
    refine Eq.trans ?_ hpop
    exact minutes_noted s' _ (.taken e w) rfl rfl rfl rfl
  | none =>
    simp only at hpop ⊢
    split <;> exact hpop

theorem minutes_afterTake (s : Pool n) (w : WorkerId) (t : ThreadId) :
    (afterTake w t (s.take w)).1.minutes = s.minutes := by
  have htake := s.minutes_take w
  generalize s.take w = r at htake
  obtain ⟨s', found⟩ := r
  cases found <;> exact htake

theorem minutes_chargeAll (s : Pool n) (leaving : Option (Fin n)) : (s.chargeAll leaving).minutes = s.minutes := by
  have hone : ∀ (now : Instant) (tasks : Nat) (acc : Pool n × Nat) (e : Fin n),
      (chargeOne now tasks acc e).1.minutes = acc.1.minutes := fun now tasks acc e =>
    minutes_noted acc.1 _ (.charged e (acc.1.executor e).chargedAt now tasks) rfl rfl rfl rfl
  have hfold : ∀ (l : List (Fin n)) (now : Instant) (tasks : Nat) (acc : Pool n × Nat),
      (l.foldl (chargeOne now tasks) acc).1.minutes = acc.1.minutes := by
    intro l now tasks acc
    induction l generalizing acc with
    | nil => rfl
    | cons e l ih => rw [List.foldl_cons, ih, hone]
  have hraise : ∀ (s : Pool n) (least : Nat), (s.raiseMinimum least).minutes = s.minutes := by
    intro s least
    unfold raiseMinimum
    split <;> rfl
  unfold chargeAll
  exact (hraise _ _).trans (hfold ..)

theorem minutes_push (s : Pool n) (e : Fin n) : (s.push e).minutes = s.minutes :=
  minutes_noted s _ (.queued e) rfl rfl rfl rfl

theorem minutes_ensureRunning (s : Pool n) : s.ensureRunning.minutes = s.minutes := by
  obtain ⟨s', hwatch, hworker⟩ := s.ensureRunning_cases
  have hs' : s'.minutes = s.minutes := by
    rcases hwatch with ⟨-, rfl⟩ | ⟨-, rfl⟩ <;> rfl
  rcases hworker with ⟨hrun, -⟩ | ⟨slot, -, hrun⟩
  · rw [hrun, hs']
  · rw [hrun, minutes_spawnWorker, hs']

theorem minutes_enqueue (s : Pool n) (e : Fin n) {s' : Pool n} (h : s.enqueue e = .ok s') : s'.minutes = s.minutes := by
  unfold enqueue at h
  split at h
  · cases h
  · split at h
    · cases h
      rfl
    · have hcharge := (s.ensureRunning.minutes_chargeAll none).trans s.minutes_ensureRunning
      simp only at h
      generalize s.ensureRunning.chargeAll none = c at hcharge h
      have hpush : ∀ f : Executor → Executor, ((c.modify e f).push e).minutes = s.minutes := fun f =>
        (minutes_push _ e).trans hcharge
      cases h
      split <;> exact hpush _

theorem minutes_settle (s : Pool n) (e : Fin n) : (s.settle e).1.minutes = s.minutes := by
  have hcharge := ({ s with running := s.running.filter (· != e) } : Pool n).minutes_chargeAll (some e)
  have hend : ∀ (r : Pool n) (stage stage' : Stage),
      ((r.setStage e stage).emit (.settled e stage')).minutes = r.minutes := fun r _ _ => minutes_emit _ rfl
  have hpush : ∀ r : Pool n, (r.push e).wakeWorker.minutes = r.minutes := fun r => r.minutes_push e
  have hreport : ∀ (r : Pool n) (computer : ComputerId) (stage : Stage),
      (r.report (.impossibleStage computer stage)).minutes = r.minutes := fun r _ _ => r.minutes_emit rfl
  unfold settle
  simp only
  split
  · split <;> simp only [hend, hpush, hreport] <;> exact hcharge
  · split <;> simp only [hend, hpush, hreport] <;> exact hcharge
  · split <;> simp only [hend, hpush] <;> exact hcharge

theorem minutes_vacate (s : Pool n) (w : WorkerId) (respawn : Bool) : (s.vacate w respawn).minutes = s.minutes := by
  unfold vacate
  split
  · rfl
  · simp only
    split
    · split
      · exact minutes_spawnWorker _ _
      · rfl
    · exact minutes_noted s _ (.reported (.slotReplaced _)) rfl rfl rfl rfl

/-! ## Instructions -/

/-- An instruction that has nothing to do with reports leaves the record alone. -/
theorem minutes_exec (s : Pool n) (t : ThreadId) {i : Instr n} (h : i.reports = false) :
    (s.exec t i).1.minutes = s.minutes := by
  have hworker : ∀ (w : WorkerId) {f : Worker n → Worker n}, (∀ worker, (f worker).lastReport = worker.lastReport) →
      (s.modifyWorker w f).minutes = s.minutes := fun w _ hf => s.minutes_modifyWorker w hf
  cases i
  case call c =>
    cases c
    case submit e =>
      simp only [exec, call]
      split
      · rfl
      · exact minutes_noted s _ (.submitted e (.ok ())) rfl rfl rfl rfl
    all_goals rfl
  case enqueue e =>
    simp only [exec]
    split
    · split
      · rename_i s' hs'
        refine Eq.trans ?_ (s.minutes_enqueue e hs')
        exact minutes_noted s' _ (.submitted e (.ok ())) rfl rfl rfl rfl
      · rfl
    · rfl
  case withdraw e =>
    simp only [exec]
    split <;> exact minutes_noted s _ (.submitted e (.error .notRunning)) rfl rfl rfl rfl
  case finishUnload e =>
    simp only [exec]
    split
    · rfl
    · exact minutes_noted s _ (.reported (.unloading _)) rfl rfl rfl rfl
  case announce e => exact s.minutes_announce e
  case callHost e callback => exact s.minutes_callHost e (of_decide_eq_false h)
  case startWorker w => exact hworker w fun _ => rfl
  case nextSlice w =>
    simp only [exec]
    split <;> rfl
  case seekWork w => exact ({ s with idle := s.idle + 1 } : Pool n).minutes_afterTake w t
  case awaitWork w => exact s.minutes_afterTake w t
  case clearInterrupt w => exact hworker w fun _ => rfl
  case noteAllocated w e =>
    simp only [exec]
    split <;> rfl
  case publish w e allocated => exact hworker w fun _ => rfl
  case callWork w e => exact s.minutes_emit rfl
  case sleep w deadline =>
    simp only [exec]
    split <;> rfl
  case doze w deadline =>
    simp only [exec]
    split <;> rfl
  case observe e o => exact s.minutes_observe e o
  case handle e result => exact s.minutes_handle e result
  case closeSlice w e before =>
    simp only [exec]
    split
    · exact hworker w fun _ => rfl
    · rfl
  case resetTimer e slice => exact minutes_noted s _ (.timerReset e _) rfl rfl rfl rfl
  case account e o => exact s.minutes_observe e o
  case warnAllocation e before after => exact s.minutes_emit rfl
  case settle e =>
    have hexec : (s.exec t (.settle e)).1 = (s.settle e).1 := by
      simp only [exec]
      split <;> (rename_i hsettle; rw [hsettle])
    rw [hexec, minutes_settle]
  case retire w =>
    simp only [exec]
    split
    · split
      · exact (minutes_emit _ rfl).trans (hworker w fun _ => rfl)
      · rfl
    · rfl
  case takeAbandoned w => exact hworker w fun _ => rfl
  case vacate w respawn => exact s.minutes_vacate w respawn
  case raise w e overrun =>
    simp only [exec, raise]
    split
    · rfl
    · exact minutes_noted s _ (.reported (.hardAborting _)) rfl rfl rfl rfl
  case press w e overrun => exact s.minutes_press w e overrun
  case stopWait deadline timeout =>
    simp only [exec]
    split
    · rfl
    · split
      · exact minutes_noted s _ (.reported (.stopTimedOut ..)) rfl rfl rfl rfl
      · rfl
  case report w e overrun => cases h
  case writeReport e overrun thread => cases h
  all_goals rfl

/-- An action that has nothing to do with reports leaves the record alone. -/
theorem minutes_act (s : Pool n) {a : Action n} (h : ∀ i, s.head? a = some i → i.reports = false) :
    (s.act a).minutes = s.minutes := by
  cases a with
  | step t =>
    show (s.step t).minutes = s.minutes
    unfold step
    split
    · rfl
    · rename_i i rest hcode
      split
      · rfl
      · exact (s.setCode t rest).minutes_exec t (h i (head?_step hcode))
  | work t a =>
    simp only [act]
    split
    · cases a with
      | allocate bytes => exact s.minutes_modifyWorker _ fun _ => rfl
      | finish result => exact s.minutes_emit rfl
      | _ => rfl
    · rfl
  | _ => rfl

/-! ## Reports -/

/-- A worker may be reported if the log keeps warnings and its last report is not too recent. -/
theorem beginReport_eq {s : Pool n} {w : WorkerId} {worker : Worker n} (hw : s.workers[w]? = some worker)
    (hlog : s.log.keeps .warn = true) (e : Fin n) (overrun : Duration) :
    s.beginReport w e overrun =
      if s.mayReport worker then
        (s.modifyWorker w fun worker => { worker with lastReport := some s.clock },
          [.writeReport e overrun worker.threadName])
      else (s, []) := by
  unfold beginReport
  rw [hw]
  simp only [hlog, Bool.true_and]

theorem toList_writeReport (s : Pool n) (e : Fin n) (overrun : Duration) (thread : String) :
    (s.writeReport e overrun thread).history.toList =
      s.history.toList ++ (s.executor e).host.reportEvents e overrun thread := by
  unfold writeReport callHost Host.reportEvents
  simp only [report]
  cases (s.executor e).host.failure .writeState with
  | none => simp [toList_emit]
  | some reason => simp [toList_emit]

theorem minutes_writeReport (s : Pool n) (e : Fin n) (overrun : Duration) (thread : String) :
    (s.writeReport e overrun thread).minutes =
      { s.minutes with told := s.minutes.told ++ (s.executor e).host.reportEvents e overrun thread } := by
  have htold : (s.writeReport e overrun thread).history.toList.filter Event.isReport =
      s.history.toList.filter Event.isReport ++ (s.executor e).host.reportEvents e overrun thread := by
    rw [toList_writeReport, List.filter_append]
    congr 1
    unfold Host.reportEvents
    cases (s.executor e).host.failure .writeState <;> simp [Event.isReport]
  have hkeep : (s.writeReport e overrun thread).log = s.log ∧
      (s.writeReport e overrun thread).lastReport? = s.lastReport? := by
    unfold writeReport callHost
    simp only
    split <;> exact ⟨rfl, rfl⟩
  simp only [minutes, htold, hkeep]

end Pool

end FairShare.Scheduler

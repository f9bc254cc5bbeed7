import FairShare.Proofs.Effect

/-!
# The gear of a pool

What the books leave out and the theory of shares, of escalation and of stopping looks at: the clock with the
timeouts, the slots with the workers that belong to them, and those events of the history that tell what was done
to slices, to workers and to the host. `Instr.Drive` says what each instruction does to it, and, where `Instr.Leads`
only lists what can come next, what does come next.
-/

namespace FairShare.Scheduler

variable {n : Nat}

/-- Whether an event tells what was done to a slice, to a worker or to the host. -/
def Event.isDeed : Event n → Bool
  | .called _ _ | .taken _ _ | .workBegan _ _ | .timerReset _ _ | .interrupted _ | .retired _ => true
  | _ => false

/-- What the theory looks at in a pool besides its books. -/
@[ext] structure Gear (n : Nat) where
  /-- The settings. -/
  config : SchedulerConfig
  /-- The present. -/
  clock : Instant
  /-- The host's part of each executor. -/
  host : Fin n → Host
  /-- The timeout of each executor. -/
  timeout : Fin n → TimeoutState
  /-- The slot of each worker. -/
  seats : List Nat
  /-- Which workers have begun their threads. -/
  started : List Bool
  /-- Which workers were interrupted. -/
  interrupted : List Bool
  /-- The slots, each with its worker. -/
  slots : List (Option WorkerId)
  /-- How many workers are counted as alive. -/
  workerCount : Nat
  /-- How many workers are idle. -/
  idle : Nat
  /-- The threads that wait for the workers to retire. -/
  stopWaiters : List ThreadId
  /-- What was done to slices, to workers and to the host. -/
  deeds : List (Event n)

namespace Gear

/-- Changes the timeout of an executor. -/
def onTimeout (g : Gear n) (e : Fin n) (f : TimeoutState → TimeoutState) : Gear n :=
  { g with timeout := fun e' => if e' = e then f (g.timeout e) else g.timeout e' }

/-- Something was done. -/
def deed (g : Gear n) (v : Event n) : Gear n := { g with deeds := g.deeds ++ [v] }

/-- Interrupts a worker whose thread has begun. -/
def interrupt (g : Gear n) (w : WorkerId) : Gear n :=
  { g with interrupted := g.interrupted.modify w fun up => (g.started[w]?).getD false || up }

/-- Starts a worker for a slot. -/
def hire (g : Gear n) (slot : Nat) : Gear n :=
  { g with
    seats := g.seats ++ [slot]
    started := g.started ++ [false]
    interrupted := g.interrupted ++ [false]
    slots := g.slots.set slot (some g.seats.length)
    workerCount := g.workerCount + 1 }

/-- A worker leaves the count, and those who wait for it are woken. -/
def discount (g : Gear n) : Gear n := { g with workerCount := g.workerCount - 1, stopWaiters := [] }

/-- A worker leaves its slot. -/
def leave (g : Gear n) (slot : Nat) : Gear n := { g.discount with slots := g.slots.set slot none }

/-- The share of each of some active executors. -/
def period (g : Gear n) (active : Nat) : Duration :=
  (g.config.basePeriod.div (max active 1 % 0x100000000)).max g.config.minPeriod

end Gear

namespace Pool

/-- The gear of a pool. -/
def gear (s : Pool n) : Gear n where
  config := s.config
  clock := s.clock
  host e := (s.executor e).host
  timeout e := (s.executor e).timeout
  seats := s.workers.map (·.slot)
  started := s.workers.map (·.started)
  interrupted := s.workers.map (·.interrupted)
  slots := s.slots
  workerCount := s.workerCount
  idle := s.idle
  stopWaiters := s.stopWaiters
  deeds := s.history.toList.filter Event.isDeed

/-! ## Events and executors -/

theorem gear_emit (s : Pool n) (v : Event n) :
    (s.emit v).gear = { s.gear with deeds := s.gear.deeds ++ if v.isDeed then [v] else [] } := by
  have hd : (s.emit v).gear.deeds = s.gear.deeds ++ if v.isDeed then [v] else [] := by
    cases h : v.isDeed <;> simp [gear, emit, h]
  rw [← hd]
  rfl

theorem gear_emit_plain (s : Pool n) {v : Event n} (hv : v.isDeed = false) : (s.emit v).gear = s.gear := by
  rw [gear_emit, hv]
  simp

theorem gear_emit_deed (s : Pool n) {v : Event n} (hv : v.isDeed = true) :
    (s.emit v).gear = s.gear.deed v := by
  rw [gear_emit, hv]
  rfl

@[simp] theorem gear_report (s : Pool n) (notice : Notice) : (s.report notice).gear = s.gear :=
  gear_emit_plain s rfl

@[simp] theorem gear_foldl_metrics (s : Pool n) (notes : List Metrics.Note) :
    (notes.foldl (fun s note => s.emit (.metrics note)) s).gear = s.gear := by
  induction notes generalizing s with
  | nil => rfl
  | cons note notes ih =>
    rw [List.foldl_cons, ih]
    exact gear_emit_plain s rfl

/-- A change of an executor that keeps the host's part and the timeout. -/
theorem gear_modify (s : Pool n) (e : Fin n) {f : Executor → Executor} (hh : ∀ x, (f x).host = x.host)
    (ht : ∀ x, (f x).timeout = x.timeout) : (s.modify e f).gear = s.gear := by
  have hx : ∀ e', ((s.modify e f).executor e').host = (s.executor e').host ∧
      ((s.modify e f).executor e').timeout = (s.executor e').timeout := by
    intro e'
    rw [executor_modify_eq]
    split
    · subst_vars; exact ⟨hh _, ht _⟩
    · exact ⟨rfl, rfl⟩
  apply Gear.ext
  all_goals first | rfl | skip
  · exact funext fun e' => (hx e').1
  · exact funext fun e' => (hx e').2

theorem gear_modifyTimeout (s : Pool n) (e : Fin n) (f : TimeoutState → TimeoutState) :
    (s.modifyTimeout e f).gear = s.gear.onTimeout e f := by
  have hx : ∀ e', (s.modifyTimeout e f).executor e' =
      if e' = e then { s.executor e with timeout := f (s.executor e).timeout } else s.executor e' :=
    fun e' => executor_modify_eq s e e' _
  apply Gear.ext
  all_goals first | rfl | skip
  all_goals
    funext e'
    simp only [gear, Gear.onTimeout, hx]
    split <;> simp_all

@[simp] theorem gear_setStage (s : Pool n) (e : Fin n) (stage : Stage) : (s.setStage e stage).gear = s.gear :=
  gear_modify s e (fun _ => rfl) fun _ => rfl

@[simp] theorem gear_setAnswer (s : Pool n) (t : ThreadId) (answer : Answer) :
    (s.setAnswer t answer).gear = s.gear := rfl

@[simp] theorem gear_setCode (s : Pool n) (t : ThreadId) (code : List (Instr n)) :
    (s.setCode t code).gear = s.gear := rfl

/-! ## Workers -/

/-- A change of a worker that keeps its slot, whether its thread began and whether it was interrupted. -/
theorem gear_modifyWorker (s : Pool n) (w : WorkerId) {f : Worker n → Worker n} (hslot : ∀ x, (f x).slot = x.slot)
    (hs : ∀ x, (f x).started = x.started) (hi : ∀ x, (f x).interrupted = x.interrupted) :
    (s.modifyWorker w f).gear = s.gear := by
  apply Gear.ext
  all_goals first | rfl | skip
  · exact map_modify_keep hslot s.workers w
  · exact map_modify_keep hs s.workers w
  · exact map_modify_keep hi s.workers w

theorem gear_setStarted (s : Pool n) (w : WorkerId) :
    (s.modifyWorker w fun worker => { worker with started := true }).gear =
      { s.gear with started := s.gear.started.set w true } := by
  apply Gear.ext
  all_goals first | rfl | skip
  · exact map_modify_keep (g := (·.slot)) (f := ({ · with started := true })) (fun _ => rfl) s.workers w
  · exact map_modify_set (g := (·.started)) (f := ({ · with started := true })) (fun _ => rfl) s.workers w
  · exact map_modify_keep (g := (·.interrupted)) (f := ({ · with started := true })) (fun _ => rfl) s.workers w

theorem gear_clearInterrupted (s : Pool n) (w : WorkerId) :
    (s.modifyWorker w fun worker => { worker with interrupted := false }).gear =
      { s.gear with interrupted := s.gear.interrupted.set w false } := by
  apply Gear.ext
  all_goals first | rfl | skip
  · exact map_modify_keep (g := (·.slot)) (f := ({ · with interrupted := false })) (fun _ => rfl) s.workers w
  · exact map_modify_keep (g := (·.started)) (f := ({ · with interrupted := false })) (fun _ => rfl) s.workers w
  · exact map_modify_set (g := (·.interrupted)) (f := ({ · with interrupted := false })) (fun _ => rfl) s.workers w

theorem gear_interrupt (s : Pool n) (w : WorkerId) :
    (s.modifyWorker w fun worker => { worker with interrupted := worker.started || worker.interrupted }).gear =
      s.gear.interrupt w := by
  apply Gear.ext
  all_goals first | rfl | skip
  · exact map_modify_keep (g := (·.slot)) (f := fun x => { x with interrupted := x.started || x.interrupted })
      (fun _ => rfl) s.workers w
  · exact map_modify_keep (g := (·.started)) (f := fun x => { x with interrupted := x.started || x.interrupted })
      (fun _ => rfl) s.workers w
  · show (s.workers.modify w _).map _ = (s.workers.map _).modify w _
    apply List.ext_getElem? fun j => ?_
    simp only [List.getElem?_map, List.getElem?_modify, gear]
    by_cases hj : w = j
    · subst hj
      cases s.workers[w]? <;> simp
    · cases s.workers[j]? <;> simp [hj]

theorem gear_spawnWorker (s : Pool n) (slot : Nat) : (s.spawnWorker slot).gear = s.gear.hire slot := by
  simp [spawnWorker, spawn, gear, Gear.hire, executor]

@[simp] theorem gear_spawnWatchdog (s : Pool n) : s.spawnWatchdog.gear = s.gear := rfl

/-! ## The host's side -/

@[simp] theorem gear_observe (s : Pool n) (e : Fin n) (o : Metrics.Observation) : (s.observe e o).gear = s.gear := by
  have he : (s.emit (.observed e o)).gear = s.gear := gear_emit_plain s rfl
  unfold observe
  simp only
  split
  · rw [gear_foldl_metrics]
    exact he
  · exact he

@[simp] theorem gear_announce (s : Pool n) (e : Fin n) : (s.announce e).gear = s.gear := by
  unfold announce
  simp only
  rw [gear_foldl_metrics]
  exact gear_emit_plain s rfl

theorem gear_callHost (s : Pool n) (e : Fin n) (callback : Callback) :
    (s.callHost e callback).gear = s.gear.deed (.called e callback) := by
  have he : (s.emit (.called e callback)).gear = s.gear.deed (.called e callback) := gear_emit_deed s rfl
  unfold callHost
  simp only
  split
  · rw [gear_report, he]
  · exact he

theorem gear_refresh (s : Pool n) (e : Fin n) :
    (s.refresh e).gear = s.gear.onTimeout e (·.refresh s.share s.clock) := gear_modifyTimeout s e _

@[simp] theorem gear_recordError (s : Pool n) (e : Fin n) (reason : String) :
    (s.recordError e reason).gear = s.gear := gear_modify s e (fun _ => rfl) fun _ => rfl

@[simp] theorem gear_handle (s : Pool n) (e : Fin n) (result : WorkResult) : (s.handle e result).1.gear = s.gear := by
  have hfail : ∀ (notice : Notice) (reason : String), ((s.report notice).recordError e reason).gear = s.gear := by
    intro notice reason
    rw [gear_recordError, gear_report]
  unfold handle
  cases result with
  | ok => rfl
  | error error =>
    simp only
    split <;> exact hfail _ _
  | crashed reason => exact hfail _ _

/-! ## Critical sections -/

theorem gear_chargeOne (now : Instant) (tasks : Nat) (acc : Pool n × Nat) (e : Fin n) :
    (chargeOne now tasks acc e).1.gear = acc.1.gear := by
  have he : (acc.1.emit (.charged e (acc.1.executor e).chargedAt now tasks)).gear = acc.1.gear :=
    gear_emit_plain _ rfl
  rw [← he]
  exact gear_modify _ e (fun _ => rfl) fun _ => rfl

@[simp] theorem gear_chargeAll (s : Pool n) (leaving : Option (Fin n)) : (s.chargeAll leaving).gear = s.gear := by
  have hfold : ∀ (l : List (Fin n)) (acc : Pool n × Nat),
      (l.foldl (chargeOne s.now (1 + s.queue.length)) acc).1.gear = acc.1.gear := by
    intro l
    induction l with
    | nil => exact fun _ => rfl
    | cons e l ih => exact fun acc => (ih _).trans (gear_chargeOne _ _ acc e)
  have hmin : ∀ (s : Pool n) (least : Nat), (s.raiseMinimum least).gear = s.gear := by
    intro s least
    unfold raiseMinimum
    split <;> rfl
  unfold chargeAll
  simp only
  rw [hmin, hfold]

@[simp] theorem gear_push (s : Pool n) (e : Fin n) : (s.push e).gear = s.gear := gear_emit_plain s rfl

@[simp] theorem gear_wakeWorker (s : Pool n) : s.wakeWorker.gear = s.gear := rfl

@[simp] theorem gear_settle (s : Pool n) (e : Fin n) : (s.settle e).1.gear = s.gear := by
  have hc : ({ s with running := s.running.filter (· != e) }.chargeAll (some e)).gear = s.gear := gear_chargeAll _ _
  have hend : ∀ (r : Pool n) (stage stage' : Stage), ((r.setStage e stage).emit (.settled e stage')).gear = r.gear := by
    intro r stage stage'
    rw [gear_emit_plain _ rfl, gear_setStage]
  unfold settle
  simp only
  split
  · split <;> simp [hend, hc]
  · split <;> simp [hend, hc]
  · split <;> simp [hend, hc]

theorem gear_pop (s : Pool n) (q : List (Entry n)) : (s.pop q).1.gear = s.gear := by
  induction q generalizing s with
  | nil => rfl
  | cons head rest ih =>
    unfold pop
    simp only
    split
    · exact gear_setStage { s with queue := rest } head.executor .running
    · exact ih s
    · exact (ih _).trans (gear_report s _)

theorem gear_assign (s : Pool n) (e : Fin n) (w : WorkerId) :
    (s.assign e w).gear = s.gear.deed (.taken e w) := by
  have hm : (s.modify e fun x => { x with chargedAt := s.now }).gear = s.gear :=
    gear_modify s e (fun _ => rfl) fun _ => rfl
  have he := gear_emit_deed (s.modify e fun x => { x with chargedAt := s.now }) (v := .taken e w) rfl
  rw [hm] at he
  exact he

/-- What a worker that looks for an executor does to the gear. -/
theorem gear_take (s : Pool n) (w : WorkerId) :
    match (s.take w).2 with
    | .work e => (s.take w).1.gear = { s.gear with idle := s.idle - 1 }.deed (.taken e w)
    | .over => s.phase ≠ .running ∧ (s.take w).1.gear = { s.gear with idle := s.idle - 1 }
    | .nothing => s.phase = .running ∧ (s.take w).1.gear = s.gear := by
  have hp := gear_pop s s.queue
  have hb := (books_pop s s.queue)
  have hphase : (s.pop s.queue).1.phase = s.phase := by
    obtain ⟨_, _, -, -, ⟨_, _, -, -, -, h⟩ | ⟨-, -, h⟩⟩ := hb <;> exact congrArg Books.phase h
  unfold take
  generalize s.pop s.queue = r at hp hphase
  obtain ⟨s', o⟩ := r
  have hidle : { s' with idle := s'.idle - 1 }.gear = { s.gear with idle := s.idle - 1 } := by
    show { s'.gear with idle := s'.gear.idle - 1 } = _
    rw [hp]
    rfl
  cases o with
  | some e =>
    simp only
    rw [gear_assign, hidle]
  | none =>
    simp only at hphase ⊢
    by_cases hs : s'.phase.isStopping = true
    · simp only [hs, if_true]
      refine ⟨?_, hidle⟩
      rw [← hphase]
      simpa [Phase.isStopping] using hs
    · simp only [hs]
      refine ⟨?_, hp⟩
      rw [← hphase]
      simpa [Phase.isStopping] using hs

theorem gear_ensureRunning (s : Pool n) :
    (s.ensureRunning.gear = s.gear ∧ s.ensureRunning.books.live = s.books.live ∧
      (0 < s.idle ∨ s.workerCount = s.slots.length ∨ none ∉ s.slots)) ∨
    ∃ slot, s.slots[slot]? = some none ∧ s.ensureRunning.gear = s.gear.hire slot ∧
      s.ensureRunning.books.live = s.books.live ++ [true] := by
  obtain ⟨s', hwatch, hrun⟩ := s.ensureRunning_cases
  have hs' : s'.gear = s.gear ∧ s'.books.live = s.books.live := by
    rcases hwatch with ⟨-, rfl⟩ | ⟨-, rfl⟩ <;> exact ⟨rfl, rfl⟩
  rcases hrun with ⟨hrun, hnone⟩ | ⟨slot, hslot, hrun⟩
  · rw [hrun]
    exact Or.inl ⟨hs'.1, hs'.2, hnone⟩
  · refine Or.inr ⟨slot, hslot, ?_, ?_⟩
    · rw [hrun, gear_spawnWorker, hs'.1]
    · rw [hrun, books_spawnWorker, ← hs'.2]
      rfl

/-- What putting an executor into the run queue does to the gear. -/
theorem gear_enqueue (s : Pool n) (e : Fin n) {s' : Pool n} (h : s.enqueue e = .ok s') :
    (s'.gear = s.gear ∧ s'.books.live = s.books.live ∧
      (s'.queue = s.queue ∨ 0 < s.idle ∨ s.workerCount = s.slots.length ∨ none ∉ s.slots)) ∨
    ∃ slot, s.slots[slot]? = some none ∧ s'.gear = s.gear.hire slot ∧ s'.books.live = s.books.live ++ [true] := by
  unfold enqueue at h
  split at h
  · cases h
  · split at h
    · cases h
      exact Or.inl ⟨rfl, rfl, Or.inl rfl⟩
    · have hr := gear_ensureRunning s
      have hg : s'.gear = s.ensureRunning.gear ∧ s'.books.live = s.ensureRunning.books.live := by
        have hc := gear_chargeAll s.ensureRunning none
        have hl : (s.ensureRunning.chargeAll none).books.live = s.ensureRunning.books.live := by
          rw [(books_chargeAll s.ensureRunning none).1]
        simp only at h
        generalize s.ensureRunning.chargeAll none = c at hc hl h
        have hm : ∀ f : Executor → Executor, (∀ x, (f x).host = x.host) → (∀ x, (f x).timeout = x.timeout) →
            ((c.modify e f).push e).wakeWorker.gear = c.gear := by
          intro f hh ht
          rw [gear_wakeWorker, gear_push, gear_modify c e hh ht]
        have hw : ∀ r : Pool n, r.wakeOneWatchdog.gear = r.gear := fun _ => rfl
        cases h
        split
        · refine ⟨(hw _).trans ((hm _ ?_ ?_).trans hc), hl⟩
          · exact fun _ => rfl
          · exact fun _ => rfl
        · refine ⟨(hm _ ?_ ?_).trans hc, hl⟩
          · exact fun _ => rfl
          · exact fun _ => rfl
      rw [hg.1, hg.2]
      refine hr.imp_left ?_
      rintro ⟨hgear, hlive, hn⟩
      exact ⟨hgear, hlive, Or.inr hn⟩

/-- What leaving a slot does to the gear. -/
theorem gear_vacate (s : Pool n) (w : WorkerId) (respawn : Bool) :
    ((s.gear.seats[w]? = none ∧ (s.vacate w respawn).gear = s.gear) ∨
      (∃ slot, s.gear.seats[w]? = some slot ∧ s.slots[slot]? ≠ some (some w) ∧
        (s.vacate w respawn).gear = s.gear.discount) ∨
      (∃ slot, s.gear.seats[w]? = some slot ∧ s.slots[slot]? = some (some w) ∧ respawn = false ∧
        (s.vacate w respawn).gear = s.gear.leave slot)) ∧
        (s.vacate w respawn).books.live = s.books.live ∨
    ∃ slot, s.gear.seats[w]? = some slot ∧ s.slots[slot]? = some (some w) ∧ respawn = true ∧
      (s.vacate w respawn).gear = (s.gear.leave slot).hire slot ∧
      (s.vacate w respawn).books.live = s.books.live ++ [true] := by
  have hseat : s.gear.seats[w]? = (s.workers[w]?).map (·.slot) := List.getElem?_map ..
  unfold vacate
  cases hw : s.workers[w]? with
  | none => exact Or.inl ⟨Or.inl ⟨by rw [hseat, hw]; rfl, rfl⟩, rfl⟩
  | some worker =>
    rw [hw] at hseat
    by_cases hs : s.slots[worker.slot]? = some (some w)
    · simp only [hs, if_true]
      cases respawn with
      | false => exact Or.inl ⟨Or.inr (Or.inr ⟨worker.slot, hseat, hs, rfl, rfl⟩), rfl⟩
      | true =>
        refine Or.inr ⟨worker.slot, hseat, hs, rfl, ?_, ?_⟩
        · simp [spawnWorker, spawn, gear, Gear.hire, Gear.leave, Gear.discount, executor]
        · simp [spawnWorker, spawn, books]
    · simp only [hs, if_false]
      refine Or.inl ⟨Or.inr (Or.inl ⟨worker.slot, hseat, hs, ?_⟩), rfl⟩
      have := gear_report { s with workerCount := s.workerCount - 1 } (.slotReplaced worker.slot)
      show { (({ s with workerCount := s.workerCount - 1 } : Pool n).report (.slotReplaced worker.slot)).gear with
        stopWaiters := [] } = _
      rw [this]
      rfl

/-! ## The watchdog -/

theorem gear_press (s : Pool n) (w : WorkerId) (e : Fin n) (overrun : Duration) :
    let step := s.config.timeouts.abortTimeout.nanos
    if step ≤ overrun.nanos - step ∧ s.books.current[w]? = some (some e) then
      (s.press w e overrun).1.gear = (s.gear.interrupt w).deed (.interrupted w) ∧
      (s.press w e overrun).2 =
        .report w e overrun :: if 2 * step ≤ overrun.nanos - step then [.retire w] else []
    else (s.press w e overrun).1.gear = s.gear ∧ (s.press w e overrun).2 = [] := by
  intro step
  unfold press interruptIfRunning
  simp only [current_eq]
  by_cases hstep : s.config.timeouts.abortTimeout.nanos ≤
      overrun.nanos - s.config.timeouts.abortTimeout.nanos
  · by_cases hc : s.current? w = some e
    · simp only [hstep, hc, if_true, step, and_self, and_true]
      rw [gear_emit_deed _ rfl, gear_interrupt]
    · simp [hstep, hc, step]
  · simp [hstep, step]

theorem gear_beginReport (s : Pool n) (w : WorkerId) (e : Fin n) (overrun : Duration) :
    (s.beginReport w e overrun).1.gear = s.gear := by
  unfold beginReport
  split
  · rfl
  · split
    · exact gear_modifyWorker s w (fun _ => rfl) (fun _ => rfl) fun _ => rfl
    · rfl

theorem gear_writeReport (s : Pool n) (e : Fin n) (overrun : Duration) (thread : String) :
    (s.writeReport e overrun thread).gear = s.gear.deed (.called e .writeState) := by
  unfold writeReport
  rw [gear_report, gear_callHost]

end Pool

end FairShare.Scheduler

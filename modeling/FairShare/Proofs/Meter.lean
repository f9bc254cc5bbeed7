import FairShare.Proofs.RunQueue

/-!
# The meter of a pool

What the theory of virtual runtimes looks at in a pool: the clock, the run queue and the running list, what each
executor has run and up to when it is charged, the minimum, and those events of the history that tell who entered
the run queue, who was taken from it and who was charged for how much. `Meter.Ticks` lists the few things that an
action can do to the meter; the theory never looks into a critical section again.
-/

namespace FairShare.Scheduler

variable {n : Nat}

namespace Event

/-- The executor that entered the run queue. -/
def queued? : Event n → Option (Fin n)
  | .queued e => some e
  | _ => none

/-- The executor that was taken from the run queue, and the worker that took it. -/
def taken? : Event n → Option (Fin n × WorkerId)
  | .taken e w => some (e, w)
  | _ => none

/-- The executor that was charged, and how much. -/
def charged? : Event n → Option (Fin n × Nat)
  | .charged e since upTo tasks => some (e, (upTo - since) / tasks)
  | _ => none

/-- Whether an event is none that the meter keeps. -/
def isUnmetered : Event n → Bool
  | .queued _ | .taken _ _ | .charged _ _ _ _ => false
  | _ => true

theorem unmetered {v : Event n} (h : v.isUnmetered = true) :
    v.queued? = none ∧ v.taken? = none ∧ v.charged? = none := by
  cases v <;> first | exact ⟨rfl, rfl, rfl⟩ | cases h

end Event

/-- What the theory of virtual runtimes looks at in a pool. -/
@[ext] structure Meter (n : Nat) where
  /-- The settings. -/
  config : SchedulerConfig
  /-- The present. -/
  clock : Instant
  /-- The run queue. -/
  queue : List (Entry n)
  /-- The executors that are on a worker. -/
  running : List (Fin n)
  /-- The virtual runtime of each executor. -/
  runtime : Fin n → Nat
  /-- The moment up to which the running time of each executor is charged. -/
  chargedAt : Fin n → Instant
  /-- The minimum. -/
  minimum : Nat
  /-- The number of the next arrival in the run queue. -/
  nextArrival : Nat
  /-- The executors that entered the run queue, one after the other. -/
  arrivals : List (Fin n)
  /-- The executors that were taken from the run queue, each with the worker that took it. -/
  takings : List (Fin n × WorkerId)
  /-- The executors that were charged, each with the amount. -/
  charges : List (Fin n × Nat)

namespace Meter

/-! ## What can be done to a meter -/

/-- The present as the scheduler counts it. -/
def now (m : Meter n) : Instant := clampWord m.clock

/-- The share of each active executor. -/
def scaledPeriod (m : Meter n) : Duration :=
  (m.config.basePeriod.div (max (m.running.length + m.queue.length) 1 % 0x100000000)).max m.config.minPeriod

/-- What an executor owes for the time since its last charge. -/
def due (m : Meter n) (e : Fin n) : Nat := (m.now - m.chargedAt e) / (1 + m.queue.length)

/-- Everybody in a list pays. -/
def pay (m : Meter n) (l : List (Fin n)) : Meter n :=
  { m with
    runtime := fun e => if e ∈ l then wrapWord (m.runtime e + m.due e) else m.runtime e
    chargedAt := fun e => if e ∈ l then m.now else m.chargedAt e
    charges := m.charges ++ l.map fun e => (e, m.due e) }

/-- The least virtual runtime in the run queue and among everybody in a list; the largest word without one. -/
def least (m : Meter n) (l : List (Fin n)) : Nat :=
  l.foldl (fun least e => min least (m.runtime e)) (match m.queue with
    | [] => maxWord
    | head :: _ => head.runtime)

/-- The minimum follows the least virtual runtime upward. -/
def raise (m : Meter n) (least : Nat) : Meter n :=
  if m.minimum < least ∧ least < maxWord then { m with minimum := least } else m

/-- Everybody in a list pays, and the minimum follows. -/
def charge (m : Meter n) (l : List (Fin n)) : Meter n := (m.pay l).raise ((m.pay l).least l)

/-- An executor enters the run queue with its virtual runtime. -/
def push (m : Meter n) (e : Fin n) : Meter n :=
  { m with
    queue := Entry.insert ⟨m.runtime e, m.nextArrival, e⟩ m.queue
    nextArrival := m.nextArrival + 1
    arrivals := m.arrivals ++ [e] }

/-- An executor is given the virtual runtime with which it enters the run queue. -/
def allot (m : Meter n) (e : Fin n) : Meter n :=
  { m with
    runtime := fun e' => if e' = e then
      entryRuntime (m.runtime e) m.minimum m.scaledPeriod m.config.basePeriod else m.runtime e' }

/-- An executor that was submitted enters the run queue, after those who run have paid. -/
def enter (m : Meter n) (e : Fin n) : Meter n := ((m.charge m.running).allot e).push e

/-- A worker takes an executor, and leaves a part of the run queue. -/
def take (m : Meter n) (e : Fin n) (w : WorkerId) (rest : List (Entry n)) : Meter n :=
  { m with
    queue := rest
    running := m.running ++ [e]
    chargedAt := fun e' => if e' = e then m.now else m.chargedAt e'
    takings := m.takings ++ [(e, w)] }

/-- An executor leaves its worker, and pays with those who stay. -/
def leave (m : Meter n) (e : Fin n) : Meter n :=
  { m with running := m.running.filter (· != e) }.charge (m.running.filter (· != e) ++ [e])

section

variable (m : Meter n) (l : List (Fin n))

/-- Beyond what everybody pays, only the minimum changes. -/
theorem charge_eq : m.charge l = { m.pay l with minimum := (m.charge l).minimum } := by
  unfold charge raise
  split <;> rfl

@[simp] theorem charge_config : (m.charge l).config = m.config := by rw [charge_eq]; rfl

@[simp] theorem charge_clock : (m.charge l).clock = m.clock := by rw [charge_eq]; rfl

@[simp] theorem charge_queue : (m.charge l).queue = m.queue := by rw [charge_eq]; rfl

@[simp] theorem charge_running : (m.charge l).running = m.running := by rw [charge_eq]; rfl

@[simp] theorem charge_runtime (e : Fin n) :
    (m.charge l).runtime e = if e ∈ l then wrapWord (m.runtime e + m.due e) else m.runtime e := by rw [charge_eq]; rfl

@[simp] theorem charge_chargedAt (e : Fin n) :
    (m.charge l).chargedAt e = if e ∈ l then m.now else m.chargedAt e := by rw [charge_eq]; rfl

@[simp] theorem charge_nextArrival : (m.charge l).nextArrival = m.nextArrival := by rw [charge_eq]; rfl

@[simp] theorem charge_arrivals : (m.charge l).arrivals = m.arrivals := by rw [charge_eq]; rfl

@[simp] theorem charge_takings : (m.charge l).takings = m.takings := by rw [charge_eq]; rfl

@[simp] theorem charge_charges : (m.charge l).charges = m.charges ++ l.map fun e => (e, m.due e) := by
  rw [charge_eq]; rfl

end

section

variable (m : Meter n) (e : Fin n)

@[simp] theorem push_clock : (m.push e).clock = m.clock := rfl

@[simp] theorem push_running : (m.push e).running = m.running := rfl

@[simp] theorem push_runtime : (m.push e).runtime = m.runtime := rfl

@[simp] theorem push_chargedAt : (m.push e).chargedAt = m.chargedAt := rfl

@[simp] theorem push_nextArrival : (m.push e).nextArrival = m.nextArrival + 1 := rfl

@[simp] theorem push_arrivals : (m.push e).arrivals = m.arrivals ++ [e] := rfl

@[simp] theorem push_takings : (m.push e).takings = m.takings := rfl

@[simp] theorem push_charges : (m.push e).charges = m.charges := rfl

@[simp] theorem enter_clock : (m.enter e).clock = m.clock := m.charge_clock m.running

@[simp] theorem enter_running : (m.enter e).running = m.running := m.charge_running m.running

@[simp] theorem enter_minimum : (m.enter e).minimum = (m.charge m.running).minimum := rfl

theorem enter_runtime (e' : Fin n) : (m.enter e).runtime e' = if e' = e then
    entryRuntime ((m.charge m.running).runtime e) (m.charge m.running).minimum (m.charge m.running).scaledPeriod m.config.basePeriod
      else (m.charge m.running).runtime e' := by
  rw [← m.charge_config m.running]
  rfl

@[simp] theorem enter_chargedAt (e' : Fin n) :
    (m.enter e).chargedAt e' = if e' ∈ m.running then m.now else m.chargedAt e' := m.charge_chargedAt m.running e'

@[simp] theorem enter_arrivals : (m.enter e).arrivals = m.arrivals ++ [e] :=
  congrArg (· ++ [e]) (m.charge_arrivals m.running)

@[simp] theorem enter_takings : (m.enter e).takings = m.takings := m.charge_takings m.running

@[simp] theorem enter_charges : (m.enter e).charges = m.charges ++ m.running.map fun e => (e, m.due e) :=
  m.charge_charges m.running

@[simp] theorem leave_clock : (m.leave e).clock = m.clock := charge_clock _ _

@[simp] theorem leave_queue : (m.leave e).queue = m.queue := charge_queue _ _

@[simp] theorem leave_running : (m.leave e).running = m.running.filter (· != e) := charge_running _ _

@[simp] theorem leave_chargedAt (e' : Fin n) : (m.leave e).chargedAt e' =
    if e' ∈ m.running.filter (· != e) ++ [e] then m.now else m.chargedAt e' := charge_chargedAt _ _ e'

@[simp] theorem leave_nextArrival : (m.leave e).nextArrival = m.nextArrival := charge_nextArrival _ _

@[simp] theorem leave_arrivals : (m.leave e).arrivals = m.arrivals := charge_arrivals _ _

@[simp] theorem leave_takings : (m.leave e).takings = m.takings := charge_takings _ _

end

/-- What an action can do to a meter, while the executors are at some stages. -/
inductive Ticks (stage : Fin n → Stage) (m : Meter n) : Meter n → Prop where
  /-- Nothing. -/
  | rest : Ticks stage m m
  /-- Time passes. -/
  | pass (nanos : Nat) : Ticks stage m { m with clock := m.clock + nanos }
  /-- Executors that were unloaded are dropped from the run queue. -/
  | drop (queue : List (Entry n)) (hsub : queue.Sublist m.queue)
    (hdone : ∀ q ∈ m.queue, q ∉ queue → stage q.executor = .done) : Ticks stage m { m with queue }
  /-- An executor that was submitted enters the run queue. -/
  | enter (e : Fin n) (hq : e ∉ m.queue.map (·.executor)) (hr : e ∉ m.running) : Ticks stage m (m.enter e)
  /-- A worker takes the first executor of the run queue that was not unloaded. -/
  | take (w : WorkerId) (skipped : List (Entry n)) (head : Entry n) (rest : List (Entry n))
    (hq : m.queue = skipped ++ head :: rest) (hdone : ∀ q ∈ skipped, stage q.executor = .done) :
    Ticks stage m (m.take head.executor w rest)
  /-- An executor leaves its worker. -/
  | leave (e : Fin n) (hr : e ∈ m.running) : Ticks stage m (m.leave e)
  /-- An executor leaves its worker and enters the run queue again. -/
  | requeue (e : Fin n) (hr : e ∈ m.running) : Ticks stage m ((m.leave e).push e)

end Meter

/-- Whether an instruction leaves the meter alone. -/
def Instr.isSteady : Instr n → Bool
  | .enqueue _ | .dequeue _ | .seekWork _ | .awaitWork _ | .settle _ => false
  | _ => true

namespace Pool

/-- The executors that entered the run queue so far, one after the other. -/
def arrivals (s : Pool n) : List (Fin n) := s.history.toList.filterMap Event.queued?

/-- The executors that were taken from the run queue so far, each with the worker that took it. -/
def takings (s : Pool n) : List (Fin n × WorkerId) := s.history.toList.filterMap Event.taken?

/-- The executors that were charged so far, each with the amount. -/
def charges (s : Pool n) : List (Fin n × Nat) := s.history.toList.filterMap Event.charged?

/-- The virtual runtime of an executor. -/
def runtime (s : Pool n) (e : Fin n) : Nat := (s.executor e).runtime

/-- The meter of a pool. -/
def meter (s : Pool n) : Meter n where
  config := s.config
  clock := s.clock
  queue := s.queue
  running := s.running
  runtime := s.runtime
  chargedAt e := (s.executor e).chargedAt
  minimum := s.minimum
  nextArrival := s.nextArrival
  arrivals := s.arrivals
  takings := s.takings
  charges := s.charges

/-! ## What leaves the meter alone -/

theorem toList_emit (s : Pool n) (v : Event n) : (s.emit v).history.toList = s.history.toList ++ [v] := by
  simp [emit]

@[simp] theorem meter_emit (s : Pool n) {v : Event n} (hv : v.isUnmetered = true) :
    (s.emit v).meter = s.meter := by
  obtain ⟨hq, ht, hc⟩ := Event.unmetered hv
  have ha : (s.emit v).arrivals = s.arrivals := by simp [arrivals, toList_emit, hq]
  have hk : (s.emit v).takings = s.takings := by simp [takings, toList_emit, ht]
  have hh : (s.emit v).charges = s.charges := by simp [charges, toList_emit, hc]
  apply Meter.ext
  all_goals first | rfl | assumption

@[simp] theorem meter_report (s : Pool n) (notice : Notice) : (s.report notice).meter = s.meter :=
  meter_emit s rfl

/-- A change of an executor that keeps its virtual runtime and the moment up to which it is charged. -/
theorem meter_modify (s : Pool n) (e : Fin n) {f : Executor → Executor} (hr : ∀ x, (f x).runtime = x.runtime)
    (hc : ∀ x, (f x).chargedAt = x.chargedAt) : (s.modify e f).meter = s.meter := by
  have hx : ∀ e', ((s.modify e f).executor e').runtime = (s.executor e').runtime ∧
      ((s.modify e f).executor e').chargedAt = (s.executor e').chargedAt := by
    intro e'
    rw [executor_modify_eq]
    split
    · subst_vars; exact ⟨hr _, hc _⟩
    · exact ⟨rfl, rfl⟩
  apply Meter.ext
  all_goals first | rfl | skip
  · exact funext fun e' => (hx e').1
  · exact funext fun e' => (hx e').2

@[simp] theorem meter_setStage (s : Pool n) (e : Fin n) (stage : Stage) : (s.setStage e stage).meter = s.meter :=
  meter_modify s e (fun _ => rfl) fun _ => rfl

@[simp] theorem meter_modifyTimeout (s : Pool n) (e : Fin n) (f : TimeoutState → TimeoutState) :
    (s.modifyTimeout e f).meter = s.meter := meter_modify s e (fun _ => rfl) fun _ => rfl

@[simp] theorem meter_modifyWorker (s : Pool n) (w : WorkerId) (f : Worker n → Worker n) :
    (s.modifyWorker w f).meter = s.meter := rfl

@[simp] theorem meter_setAnswer (s : Pool n) (t : ThreadId) (answer : Answer) :
    (s.setAnswer t answer).meter = s.meter := rfl

@[simp] theorem meter_setCode (s : Pool n) (t : ThreadId) (code : List (Instr n)) :
    (s.setCode t code).meter = s.meter := rfl

@[simp] theorem meter_spawnWorker (s : Pool n) (slot : Nat) : (s.spawnWorker slot).meter = s.meter := rfl

@[simp] theorem meter_foldl_metrics (s : Pool n) (notes : List Metrics.Note) :
    (notes.foldl (fun s note => s.emit (.metrics note)) s).meter = s.meter := by
  induction notes generalizing s with
  | nil => rfl
  | cons note notes ih => rw [List.foldl_cons, ih, meter_emit _ rfl]

@[simp] theorem meter_observe (s : Pool n) (e : Fin n) (o : Metrics.Observation) :
    (s.observe e o).meter = s.meter := by
  have he : (s.emit (.observed e o)).meter = s.meter := meter_emit s rfl
  unfold observe
  simp only
  split
  · rw [meter_foldl_metrics]
    exact he
  · exact he

@[simp] theorem meter_announce (s : Pool n) (e : Fin n) : (s.announce e).meter = s.meter := by
  unfold announce
  simp only
  rw [meter_foldl_metrics]
  exact meter_emit s rfl

@[simp] theorem meter_callHost (s : Pool n) (e : Fin n) (callback : Callback) :
    (s.callHost e callback).meter = s.meter := by
  have he : (s.emit (.called e callback)).meter = s.meter := meter_emit s rfl
  unfold callHost
  simp only
  split
  · rw [meter_report, he]
  · exact he

@[simp] theorem meter_refresh (s : Pool n) (e : Fin n) : (s.refresh e).meter = s.meter := meter_modifyTimeout s e _

@[simp] theorem meter_recordError (s : Pool n) (e : Fin n) (reason : String) :
    (s.recordError e reason).meter = s.meter := meter_modify s e (fun _ => rfl) fun _ => rfl

@[simp] theorem meter_handle (s : Pool n) (e : Fin n) (result : WorkResult) :
    (s.handle e result).1.meter = s.meter := by
  have hfail : ∀ (notice : Notice) (reason : String), ((s.report notice).recordError e reason).meter = s.meter := by
    intro notice reason
    rw [meter_recordError, meter_report]
  unfold handle
  cases result with
  | ok => rfl
  | error error =>
    simp only
    split <;> exact hfail _ _
  | crashed reason => exact hfail _ _

@[simp] theorem meter_raise (s : Pool n) (w : WorkerId) (e : Fin n) (overrun : Duration) :
    (s.raise w e overrun).1.meter = s.meter := by
  unfold raise
  simp only
  split <;> simp

@[simp] theorem meter_press (s : Pool n) (w : WorkerId) (e : Fin n) (overrun : Duration) :
    (s.press w e overrun).1.meter = s.meter := by
  have hi : (s.interruptIfRunning w e).1.meter = s.meter := by
    unfold interruptIfRunning
    split
    · exact meter_emit _ rfl
    · rfl
  unfold press
  generalize s.interruptIfRunning w e = r at hi
  obtain ⟨s', up⟩ := r
  simp only
  split
  · cases up <;> exact hi
  · rfl

@[simp] theorem meter_beginReport (s : Pool n) (w : WorkerId) (e : Fin n) (overrun : Duration) :
    (s.beginReport w e overrun).1.meter = s.meter := by
  unfold beginReport
  split
  · rfl
  · split <;> rfl

@[simp] theorem meter_writeReport (s : Pool n) (e : Fin n) (overrun : Duration) (thread : String) :
    (s.writeReport e overrun thread).meter = s.meter := by
  unfold writeReport
  rw [meter_report, meter_callHost]

@[simp] theorem meter_vacate (s : Pool n) (w : WorkerId) (respawn : Bool) :
    (s.vacate w respawn).meter = s.meter := by
  unfold vacate
  split
  · rfl
  · rename_i worker _
    have hreport : ({ s with workerCount := s.workerCount - 1 }.report (.slotReplaced worker.slot)).meter =
        s.meter := meter_report _ _
    simp only
    split
    · split <;> rfl
    · exact hreport

@[simp] theorem meter_ensureRunning (s : Pool n) : s.ensureRunning.meter = s.meter := by
  obtain ⟨s', hwatch, hrun⟩ := s.ensureRunning_cases
  have hs' : s'.meter = s.meter := by rcases hwatch with ⟨-, rfl⟩ | ⟨-, rfl⟩ <;> rfl
  rcases hrun with ⟨hrun, -⟩ | ⟨slot, -, hrun⟩
  · rw [hrun, hs']
  · rw [hrun, meter_spawnWorker, hs']

/-! ## Charging -/

/-- An executor pays. -/
theorem meter_charge (s : Pool n) (e : Fin n) (now : Instant) (tasks : Nat) :
    ((s.emit (.charged e (s.executor e).chargedAt now tasks)).modify e (·.charge now tasks)).meter =
      { s.meter with
        runtime := fun e' => if e' = e then
          wrapWord (s.meter.runtime e + (now - s.meter.chargedAt e) / tasks) else s.meter.runtime e'
        chargedAt := fun e' => if e' = e then now else s.meter.chargedAt e'
        charges := s.meter.charges ++ [(e, (now - s.meter.chargedAt e) / tasks)] } := by
  have hx : ∀ e', ((s.emit (.charged e (s.executor e).chargedAt now tasks)).modify e
      (·.charge now tasks)).executor e' = if e' = e then (s.executor e).charge now tasks else s.executor e' :=
    fun e' => executor_modify_eq _ e e' _
  apply Meter.ext
  case runtime =>
    funext e'
    simp only [meter, runtime, hx]
    split <;> rfl
  case chargedAt =>
    funext e'
    simp only [meter, hx]
    split <;> rfl
  case arrivals => simp [meter, arrivals, modify, toList_emit, Event.queued?]
  case takings => simp [meter, takings, modify, toList_emit, Event.taken?]
  case charges => simp [meter, charges, modify, toList_emit, Event.charged?]
  all_goals rfl

/-- Paying one after the other is paying together. -/
theorem pay_cons (m : Meter n) {e : Fin n} {l : List (Fin n)} (he : e ∉ l) :
    Meter.pay { m with
      runtime := fun e' => if e' = e then wrapWord (m.runtime e + m.due e) else m.runtime e'
      chargedAt := fun e' => if e' = e then m.now else m.chargedAt e'
      charges := m.charges ++ [(e, m.due e)] } l = m.pay (e :: l) := by
  have hne : ∀ e' ∈ l, e' ≠ e := fun e' h h' => he (h' ▸ h)
  have hdue : ∀ e' ∈ l, Meter.due { m with
      runtime := fun e' => if e' = e then wrapWord (m.runtime e + m.due e) else m.runtime e'
      chargedAt := fun e' => if e' = e then m.now else m.chargedAt e'
      charges := m.charges ++ [(e, m.due e)] } e' = m.due e' := by
    intro e' h
    simp [Meter.due, Meter.now, hne e' h]
  apply Meter.ext
  case runtime =>
    funext e'
    by_cases hl : e' ∈ l
    · simp [Meter.pay, hl, hne e' hl, hdue e' hl]
    · by_cases h : e' = e
      · subst h; simp [Meter.pay, hl]
      · simp [Meter.pay, hl, h]
  case chargedAt =>
    funext e'
    by_cases hl : e' ∈ l
    · simp [Meter.pay, hl, Meter.now]
    · by_cases h : e' = e <;> simp [Meter.pay, hl, h, he]
  case charges =>
    simp only [Meter.pay, List.map_cons, List.append_assoc, List.singleton_append]
    congr 2
    exact List.map_congr_left fun e' h => by rw [hdue e' h]
  all_goals rfl

/-- Charging one executor after the other. -/
theorem meter_foldl_charge {l : List (Fin n)} (hl : l.Nodup) (acc : Pool n × Nat) :
    (l.foldl (chargeOne acc.1.now (1 + acc.1.queue.length)) acc).1.meter = acc.1.meter.pay l ∧
      (l.foldl (chargeOne acc.1.now (1 + acc.1.queue.length)) acc).2 =
        l.foldl (fun least e => min least ((acc.1.meter.pay l).runtime e)) acc.2 := by
  induction l generalizing acc with
  | nil => simp [Meter.pay]
  | cons e l ih =>
    obtain ⟨he, hl⟩ := List.nodup_cons.1 hl
    have hm := meter_charge acc.1 e acc.1.now (1 + acc.1.queue.length)
    obtain ⟨h1, h2⟩ := ih hl (chargeOne acc.1.now (1 + acc.1.queue.length) acc e)
    have hpay : ((chargeOne acc.1.now (1 + acc.1.queue.length) acc e).1.meter).pay l =
        acc.1.meter.pay (e :: l) := by
      rw [← pay_cons _ he]
      exact congrArg (Meter.pay · l) hm
    rw [hpay] at h1 h2
    refine ⟨h1, h2.trans ?_⟩
    have hr : ((chargeOne acc.1.now (1 + acc.1.queue.length) acc e).1.executor e).runtime =
        (acc.1.meter.pay (e :: l)).runtime e := by
      show (chargeOne acc.1.now (1 + acc.1.queue.length) acc e).1.meter.runtime e = _
      rw [show (chargeOne acc.1.now (1 + acc.1.queue.length) acc e).1.meter = _ from hm]
      simp [Meter.pay]
      rfl
    rw [List.foldl_cons, ← hr]
    rfl

theorem meter_raiseMinimum (s : Pool n) (least : Nat) : (s.raiseMinimum least).meter = s.meter.raise least := by
  unfold raiseMinimum Meter.raise
  show _ = if s.minimum < least ∧ least < maxWord then _ else _
  split <;> rfl

/-- Charging everybody who is running, and an executor that just stopped. -/
theorem meter_chargeAll (s : Pool n) (leaving : Option (Fin n)) (hl : (s.running ++ leaving.toList).Nodup) :
    (s.chargeAll leaving).meter = s.meter.charge (s.running ++ leaving.toList) := by
  obtain ⟨h1, h2⟩ := meter_foldl_charge hl (s, s.leastQueued)
  unfold chargeAll
  simp only at h1 h2 ⊢
  rw [meter_raiseMinimum, h1, h2]
  rfl

/-! ## The run queue -/

theorem meter_push (s : Pool n) (e : Fin n) : (s.push e).meter = s.meter.push e := by
  apply Meter.ext
  case arrivals => simp [meter, arrivals, push, toList_emit, Meter.push, Event.queued?]
  case takings => simp [meter, takings, push, toList_emit, Meter.push, Event.taken?]
  case charges => simp [meter, charges, push, toList_emit, Meter.push, Event.charged?]
  all_goals rfl

theorem meter_allot (s : Pool n) (e : Fin n) :
    (s.modify e fun x =>
      { x with runtime := entryRuntime x.runtime s.minimum s.scaledPeriod s.config.basePeriod }).meter =
      s.meter.allot e := by
  have hx : ∀ e', (s.modify e fun x =>
      { x with runtime := entryRuntime x.runtime s.minimum s.scaledPeriod s.config.basePeriod }).executor e' =
      if e' = e then { s.executor e with
        runtime := entryRuntime (s.executor e).runtime s.minimum s.scaledPeriod s.config.basePeriod }
      else s.executor e' := fun e' => executor_modify_eq _ e e' _
  apply Meter.ext
  case runtime =>
    funext e'
    simp only [meter, runtime, hx, Meter.allot]
    split <;> rfl
  case chargedAt =>
    funext e'
    simp only [meter, hx, Meter.allot]
    split
    · subst_vars; rfl
    · rfl
  all_goals rfl

/-- Putting an executor into the run queue that was submitted. -/
theorem meter_enqueue (s : Pool n) (e : Fin n) (hr : s.running.Nodup) {s' : Pool n} (h : s.enqueue e = .ok s') :
    (s.books.stage e = .done ∧ s'.meter = s.meter) ∨ s'.meter = s.meter.enter e := by
  unfold enqueue at h
  split at h
  · cases h
  · split at h
    · rename_i hdone
      cases h
      exact Or.inl ⟨hdone, rfl⟩
    · right
      have hrun : s.ensureRunning.running = s.running := congrArg Meter.running (meter_ensureRunning s)
      have hc := meter_chargeAll s.ensureRunning none (by simpa [hrun] using hr)
      rw [meter_ensureRunning, Option.toList_none, List.append_nil, hrun] at hc
      simp only at h
      generalize s.ensureRunning.chargeAll none = c at hc h
      have hm := meter_allot c e
      generalize c.modify e _ = c' at hm h
      have hp : (c'.push e).wakeWorker.meter = s.meter.enter e := by
        show (c'.push e).meter = _
        rw [meter_push, hm, hc]
        rfl
      cases h
      split
      · exact hp
      · exact hp

theorem meter_pop (s : Pool n) (q : List (Entry n)) :
    (s.pop q).1.meter = { s.meter with queue := (s.pop q).1.queue } := by
  induction q generalizing s with
  | nil => rfl
  | cons head rest ih =>
    unfold pop
    simp only
    split
    · exact meter_setStage { s with queue := rest } head.executor .running
    · exact ih s
    · rename_i stage _ _
      rw [ih, meter_report]

theorem meter_assign (s : Pool n) (e : Fin n) (w : WorkerId) :
    (s.assign e w).meter = s.meter.take e w s.queue := by
  have hx : ∀ e', (s.modify e fun x => { x with chargedAt := s.now }).executor e' =
      if e' = e then { s.executor e with chargedAt := s.now } else s.executor e' :=
    fun e' => executor_modify_eq _ e e' _
  apply Meter.ext
  case runtime =>
    funext e'
    show ((s.modify e fun x => { x with chargedAt := s.now }).executor e').runtime = (s.executor e').runtime
    rw [hx]
    split
    · subst_vars; rfl
    · rfl
  case chargedAt =>
    funext e'
    show ((s.modify e fun x => { x with chargedAt := s.now }).executor e').chargedAt = _
    rw [hx]
    simp only [Meter.take]
    split <;> rfl
  case arrivals => simp [meter, arrivals, assign, toList_emit, Meter.take, Event.queued?, modify]
  case takings => simp [meter, takings, assign, toList_emit, Meter.take, Event.taken?, modify]
  case charges => simp [meter, charges, assign, toList_emit, Meter.take, Event.charged?, modify]
  all_goals rfl

/-- A worker that looks for an executor drops a part of the run queue, and takes what it finds. -/
theorem meter_seek (s : Pool n) (w : WorkerId) :
    (s.take w).1.meter = match (s.take w).2 with
      | .work e => s.meter.take e w (s.take w).1.queue
      | _ => { s.meter with queue := (s.take w).1.queue } := by
  have hp := meter_pop s s.queue
  unfold take
  generalize s.pop s.queue = r at hp
  obtain ⟨s', o⟩ := r
  have hidle : ({ s' with idle := s'.idle - 1 } : Pool n).meter = s'.meter := rfl
  cases o with
  | some e =>
    simp only
    rw [meter_assign, hidle, hp]
    rfl
  | none =>
    simp only at hp ⊢
    split
    · exact hp
    · exact hp

theorem meter_settle (s : Pool n) (e : Fin n) (hr : (s.running.filter (· != e)).Nodup) :
    (s.settle e).1.meter = s.meter.leave e ∨ (s.settle e).1.meter = (s.meter.leave e).push e := by
  have hnodup : (s.running.filter (· != e) ++ [e]).Nodup := by
    refine List.nodup_append.2 ⟨hr, by simp, ?_⟩
    intro x hx y hy
    simp only [List.mem_filter, bne_iff_ne] at hx
    rw [List.mem_singleton.1 hy]
    exact hx.2
  have hc := meter_chargeAll { s with running := s.running.filter (· != e) } (some e) hnodup
  unfold settle
  generalize { s with running := s.running.filter (· != e) }.chargeAll (some e) = c at hc ⊢
  have hend : ∀ r : Pool n, r.meter = c.meter →
      ((r.setStage e (c.executor e).stage.sliceEnded).emit (.settled e (c.executor e).stage)).meter =
        s.meter.leave e := by
    intro r h
    rw [meter_emit _ rfl, meter_setStage, h, hc]
    rfl
  have hw : ∀ r : Pool n, (r.push e).wakeWorker.meter = r.meter.push e := meter_push (e := e)
  have hresult : ∀ r : Pool n, r.meter = c.meter →
      let ended := (r.setStage e (c.executor e).stage.sliceEnded).emit (.settled e (c.executor e).stage)
      let result := if (c.executor e).stage = .repeating && ended.phase != .closed then
        ((ended.push e).wakeWorker, (c.executor e).stage) else (ended, (c.executor e).stage)
      result.1.meter = s.meter.leave e ∨ result.1.meter = (s.meter.leave e).push e := by
    intro r h ended result
    simp only [result]
    split
    · right
      rw [hw, hend r h]
    · exact Or.inl (hend r h)
  simp only at hresult ⊢
  split
  · exact hresult _ (meter_report _ _)
  · exact hresult _ (meter_report _ _)
  · exact hresult c rfl

/-! ## What an action does -/

/-- An instruction that is steady leaves the meter alone. -/
theorem meter_exec_steady (s : Pool n) (t : ThreadId) {i : Instr n} (h : i.isSteady = true) :
    (s.exec t i).1.meter = s.meter := by
  cases i
  case call c =>
    cases c
    case submit e =>
      simp only [exec, call]
      split
      · exact meter_setStage s e _
      · exact (meter_emit _ rfl).trans (meter_setStage s e _)
    case unload e => exact meter_setStage s e .done
    case hardAbort e => exact meter_modifyTimeout s e _
    case refresh e => exact meter_refresh s e
    case arm e budget => exact meter_modifyTimeout s e (·.armClock budget s.clock)
    case startTimer e => exact meter_modifyTimeout s e (·.startClock s.clock)
    case resetTimer e => exact meter_modifyTimeout s e _
    case stop timeout => rfl
  case withdraw e =>
    have hs : (if (s.executor e).stage = .queued then s.setStage e .idle else s).meter = s.meter := by
      split
      · exact meter_setStage s e .idle
      · rfl
    exact (meter_emit _ rfl).trans hs
  case finishUnload e =>
    simp only [exec]
    split
    · rfl
    · exact (meter_report _ _).trans (meter_modify s e (fun _ => rfl) fun _ => rfl)
  case announce e => exact meter_announce s e
  case callHost e callback => exact meter_callHost s e callback
  case nextSlice w =>
    simp only [exec]
    split <;> rfl
  case noteAllocated w e =>
    simp only [exec]
    split <;> rfl
  case callWork w e => exact meter_emit s rfl
  case sleep w deadline =>
    simp only [exec]
    split <;> rfl
  case doze w deadline =>
    simp only [exec]
    split <;> rfl
  case observe e o => exact meter_observe s e o
  case handle e result => exact meter_handle s e result
  case closeSlice w e before =>
    simp only [exec]
    split <;> rfl
  case resetTimer e slice => exact (meter_emit _ rfl).trans (meter_modifyTimeout s e _)
  case account e o => exact meter_observe s e o
  case warnAllocation e before after => exact meter_report s _
  case retire w =>
    simp only [exec]
    split
    · split
      · exact meter_emit _ rfl
      · rfl
    · rfl
  case raise w e overrun => exact meter_raise s w e overrun
  case press w e overrun => exact meter_press s w e overrun
  case report w e overrun => exact meter_beginReport s w e overrun
  case writeReport e overrun thread => exact meter_writeReport s e overrun thread
  case vacate w respawn => exact meter_vacate s w respawn
  case stopWait deadline timeout =>
    simp only [exec]
    split
    · rfl
    · split
      · exact meter_report s _
      · rfl
  all_goals first | rfl | cases h

theorem meter_afterTake (w : WorkerId) (t : ThreadId) (r : Pool n × Found n) :
    (afterTake w t r).1.meter = r.1.meter := by
  obtain ⟨s, found⟩ := r
  cases found <;> rfl

/-- A worker that looks for an executor drops those that were unloaded, and takes the next one if there is one. -/
theorem take_ticks (s : Pool n) (w : WorkerId) (hp : ∀ e, (s.books.account e).Placed) :
    s.meter.Ticks s.books.stage (s.take w).1.meter := by
  have hdone : ∀ q ∈ s.meter.queue, s.books.stage q.executor ≠ .queued → s.books.stage q.executor = .done :=
    fun q hq => Books.done_of_not_queued hq (hp _)
  have hm := meter_seek s w
  have hqueue : (s.take w).1.queue = (s.take w).1.books.queue := rfl
  rcases books_take s w with ⟨e, hfound, ht⟩ | ⟨hnone, ht⟩
  · rw [hm, hfound, hqueue]
    generalize (s.take w).1.books = b at ht
    cases ht with
    | found skipped head rest faults hq hs hf hh =>
      have hq : s.meter.queue = skipped ++ head :: rest := hq
      exact .take w skipped head rest hq fun q hk => hdone q (by rw [hq]; exact List.mem_append_left _ hk) (hs q hk)
  · have hm : (s.take w).1.meter = { s.meter with queue := (s.take w).1.queue } := by
      rw [hm]
      split
      · rename_i e he
        exact absurd he (hnone e)
      · rfl
    rw [hm, hqueue]
    generalize (s.take w).1.books = b at ht
    cases ht with
    | nothing faults hs hf => exact .drop [] (List.nil_sublist _) fun q hq _ => hdone q hq (hs q hq)

/-- What the next instruction of a thread does to the meter, where the places of executors agree with their
stages. -/
theorem exec_ticks (s : Pool n) (t : ThreadId) (i : Instr n) (hp : ∀ e, ((s.books.account e).plus e [i]).Placed) :
    s.meter.Ticks s.books.stage (s.exec t i).1.meter := by
  by_cases hsteady : i.isSteady = true
  · rw [meter_exec_steady s t hsteady]
    exact .rest
  have hnodup : s.running.Nodup := by
    rw [List.nodup_iff_count]
    intro e
    have hsingle : _ + (s.books.account e).running ≤ 1 := (hp e).single
    exact Nat.le_trans (Nat.le_add_left ..) hsingle
  cases i
  case enqueue e =>
    have hsingle := (hp e).single
    simp [Account.plus] at hsingle
    have hq : e ∉ s.meter.queue.map (·.executor) := by
      show e ∉ s.queue.map _
      rw [mem_queue]
      omega
    have hr : e ∉ s.meter.running := by
      show e ∉ s.running
      rw [mem_running]
      omega
    simp only [exec]
    split
    · split
      · rename_i s' hs'
        have hm : ((s'.emit (.submitted e (.ok ()))).setAnswer t (.result (.ok ()))).meter = s'.meter :=
          meter_emit s' rfl
        rw [hm]
        rcases meter_enqueue s e hnodup hs' with ⟨-, h⟩ | h
        · rw [h]
          exact .rest
        · rw [h]
          exact .enter e hq hr
      · exact .rest
    · exact .rest
  case dequeue e =>
    have hdone : s.books.stage e = .done := (hp e).leaving (by simp [Account.plus])
    refine .drop _ List.filter_sublist fun q hq hn => ?_
    have he : q.executor = e := by
      by_contra hne
      exact hn (List.mem_filter.2 ⟨hq, by simpa using hne⟩)
    rw [he, hdone]
  case seekWork w =>
    have h := take_ticks { s with idle := s.idle + 1 } w hp
    rw [← meter_afterTake w t] at h
    exact h
  case awaitWork w =>
    have h := take_ticks s w hp
    rw [← meter_afterTake w t] at h
    exact h
  case settle e =>
    have hr : e ∈ s.meter.running := by
      have hstay := (hp e).staying
      simp [Account.plus] at hstay
      show e ∈ s.running
      rw [mem_running]
      omega
    have hexec : (s.exec t (.settle e)).1 = (s.settle e).1 := by
      simp only [exec]
      split <;> (rename_i h; rw [h])
    rw [hexec]
    rcases meter_settle s e (hnodup.filter _) with h | h
    · rw [h]
      exact .leave e hr
    · rw [h]
      exact .requeue e hr
  all_goals exact absurd rfl hsteady

/-- What an action does to the meter, where the places of executors agree with their stages. -/
theorem act_ticks (s : Pool n) (a : Action n) (hp : ∀ e, (s.books.account e).Placed) :
    s.meter.Ticks s.books.stage (s.act a).meter := by
  cases a with
  | step t =>
    show s.meter.Ticks s.books.stage (s.step t).meter
    unfold step
    cases hcode : s.code t with
    | nil => exact .rest
    | cons i rest =>
      simp only
      split
      · exact .rest
      · have hb : (s.setCode t rest).books = { s.books with codes := s.books.codes.set t rest } :=
          books_setCode s t rest
        have hpi : ∀ e, (((s.setCode t rest).books.account e).plus e [i]).Placed := by
          intro e
          rw [hb, ← Books.account_head (codes_of_code hcode) e]
          exact hp e
        exact exec_ticks (s.setCode t rest) t i hpi
  | call c =>
    have hm : (s.act (.call c)).meter = s.meter := rfl
    rw [hm]
    exact .rest
  | work t a =>
    have hm : (s.act (.work t a)).meter = s.meter := by
      simp only [act]
      split
      · cases a with
        | finish result => exact meter_emit s rfl
        | _ => rfl
      · rfl
    rw [hm]
    exact .rest
  | advance nanos => exact .pass nanos
  | release => exact .rest

end Pool

end FairShare.Scheduler

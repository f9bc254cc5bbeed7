import FairShare.Scheduler.Instruction
import FairShare.Scheduler.Phase
import FairShare.Scheduler.Queue

/-!
# The state of a scheduler

A pool is a scheduler with its executors, its workers and the threads that drive it. Its history is kept
only to be told: nothing that happens depends on it.
-/

namespace FairShare.Scheduler

/-- A worker, which runs executors on a thread of its own. It belongs to a slot until it retires, which may
be before its thread ends. -/
structure Worker (n : Nat) where
  /-- The slot. -/
  slot : Nat
  /-- Whether it is not retired. -/
  live : Bool := true
  /-- Whether its thread began, and can be interrupted. -/
  started : Bool := false
  /-- The executor whose slice it runs. -/
  current : Option (Fin n) := none
  /-- Whether it was interrupted in this slice. -/
  interrupted : Bool := false
  /-- When it was last reported. -/
  lastReport : Option Instant := none
  /-- The bytes that its thread was given so far. -/
  allocated : UInt64 := 0

/-- The name of a worker's thread, as far as it is known. -/
def Worker.threadName {n : Nat} (w : Worker n) : String :=
  if w.started then s!"computer-worker-{w.slot}" else "<starting>"

/-- A scheduler with `n` executors, and everything around it. -/
structure Pool (n : Nat) where
  /-- The settings. -/
  config : SchedulerConfig
  /-- Where observations go. -/
  context : Metrics.Context
  /-- Which notices the log keeps. -/
  log : LogFilter
  /-- The present. -/
  clock : Instant := 0
  /-- The phase. -/
  phase : Phase := .running
  /-- Whether the host still holds on to the scheduler. -/
  held : Bool := true
  /-- The executors. -/
  executors : Vector Executor n
  /-- The run queue. -/
  queue : List (Entry n) := []
  /-- The executors that are on a worker. -/
  running : List (Fin n) := []
  /-- The virtual runtime below which few are. -/
  minimum : Nat := 0
  /-- The number of the next arrival in the run queue. -/
  nextArrival : Nat := 0
  /-- How many workers are idle. -/
  idle : Nat := 0
  /-- How many workers are counted as alive. -/
  workerCount : Nat := 0
  /-- The workers ever started. -/
  workers : List (Worker n) := []
  /-- The slots, each with its worker. -/
  slots : List (Option WorkerId)
  /-- The threads ever started. -/
  threads : List (Thread n) := []
  /-- The thread of the watchdog that was started last. -/
  watchdog : Option ThreadId := none
  /-- The threads that wait for work, in the order in which they began to. -/
  workWaiters : List ThreadId := []
  /-- The watchdogs that wait to be woken. -/
  watchWaiters : List ThreadId := []
  /-- The threads that wait for the workers to retire. -/
  stopWaiters : List ThreadId := []
  /-- What happened so far. -/
  history : Array (Event n) := #[]

namespace Pool

variable {n : Nat}

/-- Notes that something happened. -/
def emit (s : Pool n) (e : Event n) : Pool n := { s with history := s.history.push e }

/-- Notes something that is reported. -/
def report (s : Pool n) (notice : Notice) : Pool n := s.emit (.reported notice)

/-- An executor. -/
def executor (s : Pool n) (e : Fin n) : Executor := getElem s.executors e.val e.isLt

/-- Changes an executor. -/
def modify (s : Pool n) (e : Fin n) (f : Executor → Executor) : Pool n :=
  { s with executors := s.executors.set e.val (f (s.executor e)) e.isLt }

@[simp] theorem executor_modify (s : Pool n) (e : Fin n) (f : Executor → Executor) :
    (s.modify e f).executor e = f (s.executor e) := by
  simp [modify, executor]

theorem executor_modify_of_ne (s : Pool n) {e e' : Fin n} (f : Executor → Executor) (h : e ≠ e') :
    (s.modify e f).executor e' = s.executor e' := by
  simp [modify, executor, Fin.val_ne_of_ne h]

/-- Changes the timeout of an executor. -/
def modifyTimeout (s : Pool n) (e : Fin n) (f : TimeoutState → TimeoutState) : Pool n :=
  s.modify e fun x => { x with timeout := f x.timeout }

/-- Moves an executor to a stage. -/
def setStage (s : Pool n) (e : Fin n) (stage : Stage) : Pool n :=
  s.modify e fun x => { x with stage }

/-- Changes a worker. -/
def modifyWorker (s : Pool n) (w : WorkerId) (f : Worker n → Worker n) : Pool n :=
  { s with workers := s.workers.modify w f }

/-- The executor that a worker runs, as the watchdog knows it. -/
def current? (s : Pool n) (w : WorkerId) : Option (Fin n) := (s.workers[w]?).bind (·.current)

/-- Whether a worker was interrupted, as the work of its slice finds it. -/
def interrupted (s : Pool n) (w : WorkerId) : Bool := (s.workers[w]?).any (·.interrupted)

/-- What a thread still has to do. -/
def code (s : Pool n) (t : ThreadId) : List (Instr n) :=
  match s.threads[t]? with
  | some thread => thread.code
  | none => []

/-- Sets what a thread still has to do. -/
def setCode (s : Pool n) (t : ThreadId) (code : List (Instr n)) : Pool n :=
  { s with threads := s.threads.modify t fun thread => { thread with code } }

/-- Sets what the last call of a thread came to. -/
def setAnswer (s : Pool n) (t : ThreadId) (answer : Answer) : Pool n :=
  { s with threads := s.threads.modify t fun thread => { thread with answer } }

/-- Starts a thread. -/
def spawn (s : Pool n) (code : List (Instr n)) : Pool n :=
  { s with threads := s.threads ++ [{ code }] }

/-- Starts a worker for a slot. -/
def spawnWorker (s : Pool n) (slot : Nat) : Pool n :=
  let w := s.workers.length
  { s.spawn [.startWorker w, .nextSlice w] with
    workers := s.workers ++ [{ slot }]
    slots := s.slots.set slot (some w)
    workerCount := s.workerCount + 1 }

/-- Starts a watchdog. -/
def spawnWatchdog (s : Pool n) : Pool n :=
  { s.spawn [.startWatchdog, .watch] with watchdog := some s.threads.length }

/-- Whether the watchdog's thread has not ended. -/
def watchdogAlive (s : Pool n) : Bool :=
  match s.watchdog with
  | some t => !(s.code t).isEmpty
  | none => false

/-- Whether executors still reach the scheduler: the host holds on to it, or a thread does. -/
def reachable (s : Pool n) : Bool :=
  s.held || s.threads.any fun thread => thread.holds && !thread.code.isEmpty

/-- How many executors are queued or running. -/
def active (s : Pool n) : Nat := s.running.length + s.queue.length

/-- The share of each active executor. Their number is counted in 32 bits. -/
def scaledPeriod (s : Pool n) : Duration :=
  (s.config.basePeriod.div (max s.active 1 % 0x100000000)).max s.config.minPeriod

/-- Whether more executors are queued than workers are idle. -/
def isBusy (s : Pool n) : Bool := s.idle < s.queue.length

/-- What an executor may use at the moment. Without a scheduler nobody waits. -/
def share (s : Pool n) : Share :=
  if s.reachable then ⟨s.scaledPeriod, !s.queue.isEmpty⟩ else ⟨s.config.basePeriod, false⟩

/-- The present as the scheduler counts it. -/
def now (s : Pool n) : Instant := clampWord s.clock

/-- A scheduler that was not used yet, for the computers of some hosts. -/
def create (config : SchedulerConfig) (context : Metrics.Context) (log : LogFilter)
    (hosts : Vector Host n) : Pool n where
  config := config
  context := context
  log := log
  executors := hosts.map fun host => .create host config.timeouts 0
  slots := List.replicate config.workerCount.toNat none

/-- A scheduler for a configuration, if that has no fault. -/
def create? (config : SchedulerConfig) (context : Metrics.Context) (log : LogFilter)
    (hosts : Vector Host n) : Except SchedulerError (Pool n) :=
  match config.validate with
  | .error fault => .error (.invalidConfig fault)
  | .ok () => .ok (create config context log hosts)

/-- The text of a scheduler. -/
def text (s : Pool n) : String :=
  Text.record "Scheduler" [("state", s.phase.name), ("config", s.config.text)] true

end Pool

end FairShare.Scheduler

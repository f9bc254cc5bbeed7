import FairShare.Scheduler.Pool

/-!
# Critical sections

The pieces of work that need the run queue or the slots as a whole: putting an executor into the run queue,
taking one from it, ending a stay on a worker, and leaving a slot. Whoever is running pays, whenever an
executor enters the queue or ends its stay, for the time since the last charge, divided by one more than the
number of those who wait; and the minimum follows the least virtual runtime upward.
-/

namespace FairShare.Scheduler

/-- The virtual runtime with which an executor enters the run queue. One that never ran starts a share behind
the minimum; any other keeps its own, but falls no further behind the minimum than half a base period. -/
def entryRuntime (current minimum : Nat) (scaledPeriod basePeriod : Duration) : Nat :=
  max current <|
    if current = 0 then clampWord (minimum + clampWord scaledPeriod.nanos)
    else minimum - clampWord basePeriod.nanos / 2

/-- An executor that pays for the time since its last charge. -/
def Executor.charge (x : Executor) (now : Instant) (tasks : Nat) : Executor :=
  { x with runtime := wrapWord (x.runtime + (now - x.chargedAt) / tasks), chargedAt := now }

namespace Pool

variable {n : Nat}

/-! ## Charging -/

/-- Charges one executor, and lowers the least runtime seen so far to its own. -/
def chargeOne (now : Instant) (tasks : Nat) (acc : Pool n × Nat) (e : Fin n) : Pool n × Nat :=
  let s := acc.1.emit (.charged e (acc.1.executor e).chargedAt now tasks)
  let s' := s.modify e (·.charge now tasks)
  (s', min acc.2 (s'.executor e).runtime)

/-- Raises the minimum to the least runtime, if there is one. -/
def raiseMinimum (s : Pool n) (least : Nat) : Pool n :=
  if s.minimum < least ∧ least < maxWord then { s with minimum := least } else s

/-- The least runtime in the run queue; the largest word without one. -/
def leastQueued (s : Pool n) : Nat :=
  match s.queue with
  | [] => maxWord
  | head :: _ => head.runtime

/-- Charges everybody who is running, and an executor that just stopped running. -/
def chargeAll (s : Pool n) (leaving : Option (Fin n)) : Pool n :=
  let (s', least) := (s.running ++ leaving.toList).foldl (chargeOne s.now (1 + s.queue.length))
    (s, s.leastQueued)
  s'.raiseMinimum least

/-! ## Entering the run queue -/

/-- Puts an executor into the run queue with its virtual runtime. -/
def push (s : Pool n) (e : Fin n) : Pool n :=
  { s.emit (.queued e) with
    queue := Entry.insert ⟨(s.executor e).runtime, s.nextArrival, e⟩ s.queue
    nextArrival := s.nextArrival + 1 }

/-- Wakes the thread that has waited for work the longest. -/
def wakeWorker (s : Pool n) : Pool n := { s with workWaiters := s.workWaiters.tail }

/-- Wakes a watchdog. -/
def wakeOneWatchdog (s : Pool n) : Pool n := { s with watchWaiters := s.watchWaiters.tail }

/-- The first empty slot. -/
def emptySlot? (s : Pool n) : Option Nat := s.slots.findIdx? (·.isNone)

/-- Starts the watchdog unless it is alive, and a worker if none is idle and a slot is empty. -/
def ensureRunning (s : Pool n) : Pool n :=
  if s.watchdogAlive && (0 < s.idle || s.workerCount == s.slots.length) then s
  else
    let s' := if s.watchdogAlive then s else s.spawnWatchdog
    if s.idle = 0 then
      match s'.emptySlot? with
      | some slot => s'.spawnWorker slot
      | none => s'
    else s'

/-- Puts an executor that was just submitted into the run queue, and wakes those whom it concerns. -/
def enqueue (s : Pool n) (e : Fin n) : Except SchedulerError (Pool n) :=
  if s.phase != .running then .error .notRunning
  else if (s.executor e).stage = .done then .ok s
  else
    let s := (s.ensureRunning).chargeAll none
    let s := s.modify e fun x =>
      { x with runtime := entryRuntime x.runtime s.minimum s.scaledPeriod s.config.basePeriod }
    let wasBusy := s.isBusy
    let s := (s.push e).wakeWorker
    .ok (if !wasBusy && s.isBusy then s.wakeOneWatchdog else s)

/-- Takes an executor out of the run queue. -/
def dequeue (s : Pool n) (e : Fin n) : Pool n :=
  { s with queue := s.queue.filter (·.executor != e) }

/-! ## Taking an executor -/

/-- Takes the first executor of the run queue that was not unloaded, and what is left of the queue. -/
def pop (s : Pool n) : List (Entry n) → Pool n × Option (Fin n)
  | [] => ({ s with queue := [] }, none)
  | head :: rest =>
    let x := s.executor head.executor
    match x.stage with
    | .queued => ({ s with queue := rest }.setStage head.executor .running, some head.executor)
    | .done => s.pop rest
    | stage => (s.report (.notQueued x.host.computer stage)).pop rest

/-- Puts an executor that was taken among the running ones. -/
def assign (s : Pool n) (e : Fin n) (w : WorkerId) : Pool n :=
  let s := s.modify e fun x => { x with chargedAt := s.now }
  { s.emit (.taken e w) with running := s.running ++ [e] }

/-- What an idle worker finds. -/
inductive Found (n : Nat) where
  /-- An executor to run. -/
  | work (e : Fin n)
  /-- Nothing, and there will be nothing. -/
  | over
  /-- Nothing yet. -/
  | nothing

/-- A worker that counts as idle looks for an executor. -/
def take (s : Pool n) (w : WorkerId) : Pool n × Found n :=
  match s.pop s.queue with
  | (s, some e) => ({ s with idle := s.idle - 1 }.assign e w, .work e)
  | (s, none) =>
    if s.phase.isStopping then ({ s with idle := s.idle - 1 }, .over) else (s, .nothing)

/-! ## Leaving a worker -/

/-- Ends the stay of an executor on a worker: it is charged a last time, and queued again if it was
submitted meanwhile. Tells the stage it was at. -/
def settle (s : Pool n) (e : Fin n) : Pool n × Stage :=
  let s := { s with running := s.running.filter (· != e) }.chargeAll (some e)
  let x := s.executor e
  let s := match x.stage with
    | .idle | .queued => s.report (.impossibleStage x.host.computer x.stage)
    | _ => s
  let s := (s.setStage e x.stage.sliceEnded).emit (.settled e x.stage)
  if x.stage = .repeating && s.phase != .closed then ((s.push e).wakeWorker, x.stage)
  else (s, x.stage)

/-- A worker that retires leaves its slot, to a replacement if one is wanted, and those who wait for
workers to retire are woken. -/
def vacate (s : Pool n) (w : WorkerId) (respawn : Bool) : Pool n :=
  match s.workers[w]? with
  | none => s
  | some worker =>
    let s := { s with workerCount := s.workerCount - 1 }
    let s :=
      if s.slots[worker.slot]? = some (some w) then
        let s := { s with slots := s.slots.set worker.slot none }
        if respawn then s.spawnWorker worker.slot else s
      else s.report (.slotReplaced worker.slot)
    { s with stopWaiters := [] }

end Pool

end FairShare.Scheduler

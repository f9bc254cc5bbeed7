import FairShare.Scheduler.Slice

/-!
# Escalation

What the watchdog does about an executor that ran past its budget. One step of escalation past it, the hard
abort is raised; after two, the worker is interrupted and the overrun reported; after three, the worker is
abandoned as well. The interrupt is aimed at the executor that was measured, and misses if the worker runs
another one by then.
-/

namespace FairShare.Scheduler.Pool

variable {n : Nat}

/-- Raises the hard abort of an executor that is over its time. -/
def raise (s : Pool n) (w : WorkerId) (e : Fin n) (overrun : Duration) : Pool n × List (Instr n) :=
  let x := s.executor e
  let s := s.modifyTimeout e (·.hardAbort)
  if x.timeout.flags.hardAborted then (s, [.press w e overrun])
  else (s.report (.hardAborting x.host.computer),
    [.callHost e .abortWithTimeout, .press w e overrun])

/-- Interrupts a worker if it still runs an executor; whether it does. -/
def interruptIfRunning (s : Pool n) (w : WorkerId) (e : Fin n) : Pool n × Bool :=
  if s.current? w = some e then
    ((s.modifyWorker w fun worker => { worker with interrupted := worker.started || worker.interrupted }).emit
      (.interrupted w), true)
  else (s, false)

/-- Interrupts a worker two steps of escalation past the budget, and abandons it after the third. -/
def press (s : Pool n) (w : WorkerId) (e : Fin n) (overrun : Duration) : Pool n × List (Instr n) :=
  let step := s.config.timeouts.abortTimeout.nanos
  let beyond := overrun.nanos - step
  if step ≤ beyond then
    match s.interruptIfRunning w e with
    | (s, true) => (s, .report w e overrun :: if 2 * step ≤ beyond then [.retire w] else [])
    | (s, false) => (s, [])
  else (s, [])

/-- Whether a worker may be reported now. -/
def mayReport (s : Pool n) (worker : Worker n) : Bool :=
  match worker.lastReport with
  | some last => s.config.reportDebounce.nanos ≤ s.clock - last
  | none => true

/-- Begins the report of an overrun, if the log keeps it and the last one is not too recent. -/
def beginReport (s : Pool n) (w : WorkerId) (e : Fin n) (overrun : Duration) :
    Pool n × List (Instr n) :=
  match s.workers[w]? with
  | none => (s, [])
  | some worker =>
    if s.log.keeps .warn && s.mayReport worker then
      (s.modifyWorker w fun worker => { worker with lastReport := some s.clock },
        [.writeReport e overrun worker.threadName])
    else (s, [])

/-- Reports an overrun, with what the computer says of itself unless it fails to. -/
def writeReport (s : Pool n) (e : Fin n) (overrun : Duration) (thread : String) : Pool n :=
  let host := (s.executor e).host
  let details := if (host.failure .writeState).isSome then "" else host.details
  (s.callHost e .writeState).report (.timedOut host.computer overrun thread details)

end FairShare.Scheduler.Pool

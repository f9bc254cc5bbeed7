import FairShare.Metrics.Record
import FairShare.Timeout.State

/-!
# Executors

An executor binds one computer of the host to the scheduler. Its stage says where it stands between two
slices; only four changes of stage exist: it is submitted, a worker takes it, its slice ends, it is unloaded.
-/

namespace FairShare.Scheduler

/-- Where an executor stands. -/
inductive Stage where
  /-- Neither queued nor running. -/
  | idle
  /-- Waiting in the run queue. -/
  | queued
  /-- Running on a worker. -/
  | running
  /-- Running, and submitted again in the meantime. -/
  | repeating
  /-- Unloaded; it will never run again. -/
  | done
  deriving DecidableEq

namespace Stage

/-- The name of a stage. -/
def name : Stage → String
  | idle => "Idle"
  | queued => "OnQueue"
  | running => "Running"
  | repeating => "Repeat"
  | done => "Done"

/-- The stage after a submit. -/
def submitted : Stage → Stage
  | idle | queued => queued
  | running | repeating => repeating
  | done => done

/-- The stage after a slice. -/
def sliceEnded : Stage → Stage
  | idle | queued | running => idle
  | repeating => queued
  | done => done

/-- Whether the executor is on a worker. -/
def isRunning : Stage → Bool
  | running | repeating => true
  | _ => false

end Stage

/-- A part of the host that the scheduler calls for a computer, besides its work. -/
inductive Callback where
  /-- The computer has to unwind at once. -/
  | abortWithTimeout
  /-- The computer failed and should be torn down. -/
  | abortWithError
  /-- The computer will never run again. -/
  | unload
  /-- The computer should say what it is doing. -/
  | writeState
  deriving DecidableEq

/-- The name of a callback. -/
def Callback.name : Callback → String
  | abortWithTimeout => "abort_with_timeout"
  | abortWithError => "abort_with_error"
  | unload => "unload"
  | writeState => "write_state"

/-- Where a computer's observations go. -/
inductive Sink where
  /-- To the observers of the metrics context. -/
  | context
  /-- Nowhere. -/
  | nowhere
  /-- To an observer of the host, which may fail on each of them. -/
  | host (fails : Bool)
  deriving DecidableEq

/-- What the host decides about a computer, once and for all. -/
structure Host where
  /-- The computer's id. -/
  computer : ComputerId
  /-- Where its observations go. -/
  sink : Sink := .context
  /-- The explanation with which a callback fails, if it does. -/
  failure : Callback → Option String := fun _ => none
  /-- What the computer says of itself in a report. -/
  details : String := ""

/-- An executor. -/
structure Executor where
  /-- The host's part. -/
  host : Host
  /-- Where it stands. -/
  stage : Stage := .idle
  /-- Its timeout. -/
  timeout : TimeoutState
  /-- Whether the host was told that it is unloaded. -/
  unloaded : Bool := false
  /-- The last error that a slice of it ended with. -/
  lastError : Option String := none
  /-- Its virtual runtime: the time it ran, divided by how many shared it. A 64-bit word. -/
  runtime : Nat := 0
  /-- The moment up to which its running time is charged. A 64-bit word. -/
  chargedAt : Instant := 0

namespace Executor

/-- An executor that was never submitted. -/
def create (host : Host) (config : TimeoutConfig) (now : Instant) : Executor :=
  { host, timeout := .create config now }

/-- The text of an executor. -/
def text (x : Executor) : String :=
  Text.record "Executor"
    [("computer", x.host.computer.debugText), ("state", x.stage.name), ("timeout", x.timeout.text)] false

end Executor

end FairShare.Scheduler

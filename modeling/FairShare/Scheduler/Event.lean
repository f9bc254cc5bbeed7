import FairShare.Log
import FairShare.Metrics.Context
import FairShare.Numeric.Binary64
import FairShare.Scheduler.Error
import FairShare.Scheduler.Executor
import FairShare.Text.Trim

/-!
# What a scheduler does

The events of a run, from which its history can be told: what was logged, which parts of the host were
called, what was observed, and the steps of the bookkeeping that leave no other trace.
-/

namespace FairShare.Scheduler

/-- Something that the scheduler reports. -/
inductive Notice where
  /-- A computer is unloaded. -/
  | unloading (computer : ComputerId)
  /-- A slice ended in an error that is not fatal. -/
  | stopped (computer : ComputerId) (reason : String)
  /-- A slice ended in a fatal error. -/
  | failed (computer : ComputerId) (reason : String)
  /-- A callback failed. -/
  | callbackFailed (computer : ComputerId) (callback : Callback) (reason : String)
  /-- The hard abort was raised on a computer that would not stop. -/
  | hardAborting (computer : ComputerId)
  /-- A computer ran past its budget for too long. -/
  | timedOut (computer : ComputerId) (overrun : Duration) (thread details : String)
  /-- A thread's count of allocated bytes went down during a slice. -/
  | negativeAllocation (computer : ComputerId) (before after : UInt64)
  /-- A slice ended at a stage that no running executor has. -/
  | impossibleStage (computer : ComputerId) (stage : Stage)
  /-- The run queue held an executor that was not queued. -/
  | notQueued (computer : ComputerId) (stage : Stage)
  /-- A worker retired from a slot that was not its own. -/
  | slotReplaced (slot : Nat)
  /-- Some workers were alive at the end of the time for stopping. -/
  | stopTimedOut (remaining : Nat) (timeout : Duration)
  deriving DecidableEq

namespace Notice

/-- A duration in seconds, computed in floating point from its seconds and its nanoseconds. -/
def floatSeconds (d : Duration) : Rat :=
  Numeric.nearest (Numeric.nearest d.seconds.toNat + Numeric.quotient d.subsecNanos.toNat secondNanos)

/-- The text of a report on a computer that ran past its budget. -/
def timeoutReport (computer : ComputerId) (overrun : Duration) (thread details : String) : String :=
  Text.trimEnd <|
    s!"Terminating computer {computer.text} due to timeout (ran over by " ++
    Numeric.fixed 2 (floatSeconds overrun) ++
    " seconds). This is NOT a bug, but may mean a computer is misbehaving.\n" ++
    s!"Thread {thread} is still running it\n" ++ details

/-- The log record of a notice. -/
def record : Notice → LogRecord
  | unloading c => ⟨.debug, s!"Unloading computer {c.text}"⟩
  | stopped c reason => ⟨.debug, s!"Computer {c.text} stopped: {reason}"⟩
  | failed c reason => ⟨.error, s!"Error running task on computer {c.text}: {reason}"⟩
  | callbackFailed c callback reason =>
    ⟨.error, s!"Computer {c.text} panicked in {callback.name}: {reason}"⟩
  | hardAborting c => ⟨.debug, s!"Hard aborting computer {c.text}"⟩
  | timedOut c overrun thread details => ⟨.warn, timeoutReport c overrun thread details⟩
  | negativeAllocation c before after =>
    ⟨.warn, s!"Allocated a negative number of bytes on computer {c.text} " ++
      s!"(before: {before.toNat}, after: {after.toNat})"⟩
  | impossibleStage _ stage => ⟨.error, s!"Impossible executor state after running: {stage.name}"⟩
  | notQueued c stage =>
    ⟨.error, s!"Trying to run computer {c.text} in state {stage.name}. This is a bug."⟩
  | slotReplaced slot => ⟨.error, s!"Worker {slot} closed, but a new runner has been spawned"⟩
  | stopTimedOut remaining timeout =>
    ⟨.error, s!"{remaining} computer worker(s) did not stop within {timeout.text}"⟩

/-- The computer that a notice names, if it names one. -/
def computer? : Notice → Option ComputerId
  | unloading c | stopped c _ | failed c _ | callbackFailed c _ _ | hardAborting c | timedOut c _ _ _
  | negativeAllocation c _ _ | notQueued c _ => some c
  | impossibleStage _ _ | slotReplaced _ | stopTimedOut _ _ => none

end Notice

/-- How a slice's work came to an end. -/
inductive WorkResult where
  /-- It is done. -/
  | ok
  /-- It ended in an error. -/
  | error (e : WorkError)
  /-- It failed in a way that the host did not foresee, with an explanation if there is one. -/
  | crashed (reason : Option String)
  deriving DecidableEq

/-- The explanation of a crash. -/
def crashReason (reason : Option String) : String := reason.getD "unknown panic"

/-- Something that happened in a run of a scheduler with `n` executors. -/
inductive Event (n : Nat) where
  /-- Something was reported. -/
  | reported (notice : Notice)
  /-- A part of the host was called. -/
  | called (executor : Fin n) (callback : Callback)
  /-- An executor made an observation. -/
  | observed (executor : Fin n) (observation : Metrics.Observation)
  /-- The metrics context did something. -/
  | metrics (note : Metrics.Note)
  /-- The metrics context told everybody that a computer is gone. -/
  | announced (executor : Fin n)
  /-- A submit was answered. -/
  | submitted (executor : Fin n) (result : Except SchedulerError Unit)
  /-- An executor was put into the run queue. -/
  | queued (executor : Fin n)
  /-- A worker took an executor from the run queue. -/
  | taken (executor : Fin n) (worker : Nat)
  /-- An executor was charged for a stretch of time, shared by `tasks`. -/
  | charged (executor : Fin n) (since upTo : Instant) (tasks : Nat)
  /-- A worker began to run an executor's work. -/
  | workBegan (executor : Fin n) (worker : Nat)
  /-- An executor's work returned. -/
  | workEnded (executor : Fin n) (worker : Nat) (result : WorkResult)
  /-- The timeout of an executor's slice was reset. -/
  | timerReset (executor : Fin n) (elapsed : Nat)
  /-- An executor's stay on a worker ended, at which it had a stage. -/
  | settled (executor : Fin n) (stage : Stage)
  /-- A worker was interrupted. -/
  | interrupted (worker : Nat)
  /-- A worker was retired. -/
  | retired (worker : Nat)

end FairShare.Scheduler

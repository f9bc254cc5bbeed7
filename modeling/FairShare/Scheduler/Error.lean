import FairShare.ComputerId
import FairShare.Scheduler.Config
import FairShare.Text.Quoted
import FairShare.Timeout.State

/-!
# Errors of the scheduler and of its computers

`SchedulerError` is what an operation of the scheduler can end with, `WorkError` what a slice of a
computer can. Only a failure is fatal: the host is told to tear such a computer down.
-/

namespace FairShare

/-- Why the scheduler did not do what it was asked to. -/
inductive SchedulerError where
  /-- It takes no more work. -/
  | notRunning
  /-- Its configuration has a fault. -/
  | invalidConfig (fault : SchedulerConfig.Fault)
  /-- Some workers were still alive when it should have stopped. -/
  | shutdownTimeout (remaining : Nat)
  deriving DecidableEq

namespace SchedulerError

/-- The explanation of an error. -/
def message : SchedulerError → String
  | notRunning => "scheduler is no longer running"
  | invalidConfig fault => s!"invalid scheduler configuration: {fault.message}"
  | shutdownTimeout remaining => s!"{remaining} worker(s) did not stop in time"

/-- The text of an error. -/
def text : SchedulerError → String
  | notRunning => "NotRunning"
  | invalidConfig fault => Text.variant "InvalidConfig" fault.text
  | shutdownTimeout remaining =>
    Text.record "ShutdownTimeout" [("remaining_workers", toString remaining)] false

end SchedulerError

/-- How a slice of a computer failed. -/
inductive WorkError where
  /-- It unwound after an abort. -/
  | aborted (abort : Abort)
  /-- A wait was cut short by the watchdog. -/
  | interrupted
  /-- The computer is broken. -/
  | failed (reason : String)
  deriving DecidableEq

namespace WorkError

/-- The explanation of an error. -/
def message : WorkError → String
  | aborted abort => abort.message
  | interrupted => "thread was interrupted"
  | failed reason => reason

/-- Whether the host is told to tear the computer down. -/
def isFatal : WorkError → Bool
  | failed _ => true
  | _ => false

/-- The text of an error. -/
def text : WorkError → String
  | aborted .soft => Text.variant "Aborted" "SoftAbort"
  | aborted .hard => Text.variant "Aborted" "HardAbort"
  | interrupted => Text.variant "Interrupted" "Interrupted"
  | failed reason => Text.variant "Failed" (Text.quote reason)

end WorkError

end FairShare

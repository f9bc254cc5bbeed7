import FairShare.Scheduler.Run

/-!
# Scripts

A computer of a simulation runs a script in each slice: the first script in its first slice, and so on, and
nothing once it has run out of scripts. Each step of a script leaves a remark on what came of it.
-/

namespace FairShare.Simulation

open Scheduler

/-- A step of a script. -/
inductive Step (n : Nat) where
  /-- Wait at a gate until it is opened. -/
  | gate
  /-- Sleep, and end the slice if interrupted. -/
  | sleep (nanos : Nat)
  /-- Sleep, and go on if interrupted. -/
  | trySleep (nanos : Nat)
  /-- Poll the timeout, and end the slice if aborted. -/
  | check
  /-- Poll the timeout. -/
  | tryCheck
  /-- Look for an interrupt, and end the slice if there is one. -/
  | interruptCheck
  /-- Look for an interrupt. -/
  | interrupted
  /-- Compare the clock with the share and the budget. -/
  | refresh
  /-- Look at the stage and the timeout. -/
  | look
  /-- Arm a budget. -/
  | arm (budget : Duration)
  /-- Raise the hard abort of a computer. -/
  | hardAbort (e : Fin n)
  /-- Submit a computer. -/
  | submit (e : Fin n)
  /-- Unload a computer. -/
  | unload (e : Fin n)
  /-- Make an observation. -/
  | observe (o : Metrics.Observation)
  /-- Ask for memory and give it back. -/
  | allocate (bytes : UInt64)
  /-- End the slice. -/
  | done
  /-- End the slice in an error. -/
  | fail (e : WorkError)
  /-- Crash, with an explanation if there is one. -/
  | crash (reason : Option String)

/-- What came of a step. -/
inductive StepResult where
  /-- Nothing to tell. -/
  | unit
  /-- The gate was opened. -/
  | opened
  /-- Yes or no. -/
  | flag (b : Bool)
  /-- What the timeout says. -/
  | checked (r : Except Abort Unit)
  /-- What a submit was answered. -/
  | submitted (r : Except SchedulerError Unit)
  /-- The time that is left. -/
  | left (d : Duration)
  /-- A timeout at some moment. -/
  | timeout (t : TimeoutState) (now : Instant)
  /-- A stage, and a timeout at some moment. -/
  | look (stage : Stage) (t : TimeoutState) (now : Instant)

/-- A remark of a script. It names the computer and counts its slices. -/
inductive Remark (n : Nat) where
  /-- A slice begins at a stage. -/
  | began (e : Fin n) (slice : Nat) (stage : Stage)
  /-- A step begins that may take a while. -/
  | entered (e : Fin n) (slice : Nat) (step : Step n)
  /-- A step ended. -/
  | completed (e : Fin n) (slice : Nat) (step : Step n) (result : StepResult)
  /-- A script came to its end. -/
  | ended (e : Fin n) (slice : Nat)

/-- The computer that a remark is on. -/
def Remark.computer {n : Nat} : Remark n → Fin n
  | began e _ _ | entered e _ _ | completed e _ _ _ | ended e _ => e

/-- What a script is at. -/
inductive Progress (n : Nat) where
  /-- It has not begun. -/
  | waiting
  /-- It is between two steps. -/
  | between
  /-- It waits at a gate. -/
  | atGate
  /-- Its gate was opened. -/
  | gateOpened
  /-- It is within a step that takes several steps of its thread. -/
  | within (step : Step n)

/-- A script that runs on a thread. -/
structure Script (n : Nat) where
  /-- The thread. -/
  thread : ThreadId
  /-- The worker of that thread. -/
  worker : WorkerId
  /-- The computer. -/
  computer : Fin n
  /-- How many slices the computer had before. -/
  slice : Nat
  /-- The steps that are left. -/
  steps : List (Step n)
  /-- What it is at. -/
  progress : Progress n := .waiting

end FairShare.Simulation

import FairShare.Scheduler.Event

/-!
# Threads and their instructions

A scheduler is driven by threads: workers, a watchdog, and callers. Each thread has the list of the
instructions that it still has to carry out, and an instruction is one piece of work that no other thread
sees half done: a critical section, a call into the host, or a change of one shared variable. A thread may
be stopped and another go on between any two of them.

An instruction that begins a larger operation puts the instructions of that operation in front of the rest.
-/

namespace FairShare.Scheduler

/-- The number of a thread. -/
abbrev ThreadId := Nat

/-- The number of a worker. -/
abbrev WorkerId := Nat

/-- Something that a caller, or the work of a slice, asks of the scheduler or of an executor. -/
inductive Call (n : Nat) where
  /-- Queue an executor. -/
  | submit (e : Fin n)
  /-- Discard an executor. -/
  | unload (e : Fin n)
  /-- Compare the clock of an executor with its share and its budget. -/
  | refresh (e : Fin n)
  /-- Arm the budget of an executor. -/
  | arm (e : Fin n) (budget : Duration)
  /-- Raise the hard abort of an executor. -/
  | hardAbort (e : Fin n)
  /-- Start the clock of an executor. -/
  | startTimer (e : Fin n)
  /-- Reset the timeout of an executor. -/
  | resetTimer (e : Fin n)
  /-- Stop the scheduler. -/
  | stop (timeout : Duration)

/-- What is known of a slice at its end. -/
inductive SliceRecord where
  /-- The slice never ran. -/
  | never
  /-- It ran on a thread that ends it too, which had been given some bytes before it and has after it. -/
  | ran (before after : UInt64)
  /-- It ran on a thread that has not come back. -/
  | abandoned
  deriving DecidableEq

/-- One piece of work of a thread. -/
inductive Instr (n : Nat) where
  /-- Carry out a call. -/
  | call (c : Call n)
  /-- Put an executor that was just submitted into the run queue. -/
  | enqueue (e : Fin n)
  /-- Take back a submit that was refused. -/
  | withdraw (e : Fin n)
  /-- Take an executor out of the run queue. -/
  | dequeue (e : Fin n)
  /-- Decide whether the host has still to be told that an executor is unloaded. -/
  | finishUnload (e : Fin n)
  /-- Tell the metrics context that an executor is unloaded. -/
  | announce (e : Fin n)
  /-- Call a part of the host. -/
  | callHost (e : Fin n) (callback : Callback)
  /-- Begin the thread of a worker. -/
  | startWorker (w : WorkerId)
  /-- Look for the next executor, unless the worker is retired. -/
  | nextSlice (w : WorkerId)
  /-- Become idle, and take an executor if one is queued. -/
  | seekWork (w : WorkerId)
  /-- Wait for an executor to be queued, and take it. -/
  | awaitWork (w : WorkerId)
  /-- Decide whether an executor that was taken is run or only unloaded. -/
  | openSlice (w : WorkerId) (e : Fin n)
  /-- Take the interrupt of the previous slice back. -/
  | clearInterrupt (w : WorkerId)
  /-- Note how many bytes the thread was given. -/
  | noteAllocated (w : WorkerId) (e : Fin n)
  /-- Make a slice known to the watchdog. -/
  | publish (w : WorkerId) (e : Fin n) (allocated : UInt64)
  /-- Call the work of an executor. -/
  | callWork (w : WorkerId) (e : Fin n)
  /-- Be within the work of an executor, until that returns. -/
  | work (w : WorkerId) (e : Fin n)
  /-- Sleep until a moment, or until interrupted: look whether the worker was interrupted. -/
  | sleep (w : WorkerId) (deadline : Instant)
  /-- Look whether the moment has come until which a worker sleeps. If not, the thread waits, but it can be woken
  at any time and looks again. -/
  | doze (w : WorkerId) (deadline : Instant)
  /-- Make an observation for an executor. -/
  | observe (e : Fin n) (o : Metrics.Observation)
  /-- Deal with the end of an executor's work. -/
  | handle (e : Fin n) (result : WorkResult)
  /-- Withdraw a slice from the watchdog, and close it unless the watchdog has done so. -/
  | closeSlice (w : WorkerId) (e : Fin n) (allocated : UInt64)
  /-- Reset the timeout of an executor whose slice ended. -/
  | resetTimer (e : Fin n) (slice : SliceRecord)
  /-- Make an observation of a slice that ended. -/
  | account (e : Fin n) (o : Metrics.Observation)
  /-- Report that a thread's count of bytes went down. -/
  | warnAllocation (e : Fin n) (before after : UInt64)
  /-- Charge an executor that leaves its worker, and queue it again if it was submitted. -/
  | settle (e : Fin n)
  /-- Retire a worker, unless it is retired. -/
  | retire (w : WorkerId)
  /-- Close the slice of a worker that retires. -/
  | takeAbandoned (w : WorkerId)
  /-- Decide whether a worker that retires is replaced. -/
  | decideRespawn (w : WorkerId)
  /-- Leave the slot of a worker that retires, to a replacement if there is one. -/
  | vacate (w : WorkerId) (respawn : Bool)
  /-- Begin the thread of a watchdog. -/
  | startWatchdog
  /-- Begin the next round of the watchdog, unless everything has ended. -/
  | watch
  /-- Decide how long the watchdog waits. -/
  | beginWatch
  /-- Wait for a moment, or until woken. -/
  | watching (deadline : Instant)
  /-- List the workers to be checked. -/
  | inspect
  /-- See which executor a worker runs. -/
  | checkWorker (w : WorkerId)
  /-- Measure how far an executor overran its budget. -/
  | measure (w : WorkerId) (e : Fin n)
  /-- Raise the hard abort of an executor. -/
  | raise (w : WorkerId) (e : Fin n) (overrun : Duration)
  /-- Interrupt a worker that still runs an executor, and abandon it if the time has come. -/
  | press (w : WorkerId) (e : Fin n) (overrun : Duration)
  /-- Decide whether an overrun is reported. -/
  | report (w : WorkerId) (e : Fin n) (overrun : Duration)
  /-- Have the computer say what it is doing, and report it. -/
  | writeReport (e : Fin n) (overrun : Duration) (thread : String)
  /-- List the executors that run while the scheduler stops. -/
  | collect (timeout : Duration)
  /-- Wake the idle workers. -/
  | wakeWorkers
  /-- Decide until when to wait for the workers. -/
  | beginStopWait (timeout : Duration)
  /-- Wait until no worker is left, or for a moment. -/
  | stopWait (deadline : Instant) (timeout : Duration)
  /-- Close the scheduler. -/
  | close
  /-- Wake the watchdog for the last time. -/
  | wakeWatchdog

/-- What the last call of a thread came to. -/
inductive Answer where
  /-- Nothing that matters. -/
  | unit
  /-- A submit or a stop was answered. -/
  | result (r : Except SchedulerError Unit)
  /-- A sleep ended; whether it was not interrupted. -/
  | slept (completed : Bool)
  /-- A hard abort was raised; whether it was not up before. -/
  | raised (newly : Bool)

/-- A thread. -/
structure Thread (n : Nat) where
  /-- What it still has to do. -/
  code : List (Instr n)
  /-- Whether it keeps the scheduler in being while it has something to do. -/
  holds : Bool := true
  /-- What its last call came to. -/
  answer : Answer := .unit

end FairShare.Scheduler

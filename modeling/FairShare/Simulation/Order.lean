import FairShare.Simulation.Turn

/-!
# The order of a simulation

Everything runs until all threads are blocked, and of several that could go on

1. those go first that run no script: workers between two slices, the watchdog, callers, each until it has
   to wait;
2. then scripts, one at a time until it blocks or ends, in the order of their computers and slices;
3. then new workers begin, and last a new watchdog.

When time has passed, the waits that are due end one after the other, each followed by all that it causes:
first sleeps, then the watchdog's wait, and then those of callers who stop the scheduler.
-/

namespace FairShare.Simulation

open Scheduler

namespace Sim

variable {n : Nat}

/-- Whether a thread takes its next step before any script goes on. -/
def isReady (s : Sim n) (t : ThreadId) : Bool :=
  match s.pool.code t with
  | [] => false
  | .sleep _ _ :: _ | .startWorker _ :: _ | .startWatchdog :: _ => false
  | .watching _ :: _ => !s.pool.watchWaiters.contains t
  | .stopWait _ _ :: _ => !s.pool.stopWaiters.contains t
  | i :: _ => !s.pool.mustWait t i

/-- The thread that takes the next step before any script goes on: the one that took the last step, as long
as it can, and else the first that can. -/
def readyThread? (s : Sim n) : Option ThreadId :=
  match s.last.filter s.isReady with
  | some t => some t
  | none => (List.range s.pool.threads.length).find? s.isReady

/-- Whether a script could go on by itself. -/
def canGoOn (s : Sim n) (x : Script n) : Bool :=
  match x.progress with
  | .waiting | .between | .gateOpened => true
  | .atGate => false
  | .within _ => !s.isAsleep x.thread || s.isInterrupted x

/-- Whether one script goes on before another. -/
def precedes (x y : Script n) : Bool :=
  x.computer < y.computer || (x.computer == y.computer && x.slice ≤ y.slice)

/-- The script that goes on next: the one whose turn it is, or the first that can. -/
def nextScript? (s : Sim n) : Option (Script n) :=
  match s.turn.bind s.script? with
  | some x => some x
  | none => ((s.scripts.filter s.canGoOn).mergeSort precedes).head?

/-- The first new thread of a kind. -/
def newThread? (s : Sim n) (isNew : Instr n → Bool) : Option ThreadId :=
  (List.range s.pool.threads.length).find? fun t => (s.pool.code t).head?.any isNew

/-- Whether an instruction begins the thread of a worker. -/
def startsWorker : Instr n → Bool
  | .startWorker _ => true
  | _ => false

/-- Whether an instruction begins the thread of a watchdog. -/
def startsWatchdog : Instr n → Bool
  | .startWatchdog => true
  | _ => false

/-- The next move, unless everything is blocked. -/
def move? (s : Sim n) : Option (Sim n) :=
  match s.readyThread? with
  | some t => some (s.step t)
  | none => match s.nextScript? with
    | some x => some (s.advanceScript x)
    | none => match s.newThread? startsWorker with
      | some t => some (s.step t)
      | none => (s.newThread? startsWatchdog).map s.step

/-- Moves until everything is blocked. -/
def moves (s : Sim n) : Nat → Sim n
  | 0 => s
  | k + 1 => match s.move? with
    | some s' => s'.moves k
    | none => s

/-- Runs everything until it is blocked. -/
def settle (s : Sim n) : Sim n := (s.moves s.patience).collect

/-- The moment until which a thread sleeps or waits. -/
def deadline? (s : Sim n) (t : ThreadId) : Option Instant :=
  match s.pool.code t with
  | .sleep _ deadline :: _ | .watching deadline :: _ | .stopWait deadline _ :: _ => some deadline
  | _ => none

/-- Whether a thread has reached its deadline. -/
def isDue (s : Sim n) (t : ThreadId) : Bool := (s.deadline? t).any (· ≤ s.pool.clock)

/-- Whether one sleeping script ends its sleep before another. -/
def wakesBefore (s : Sim n) (x y : Script n) : Bool :=
  let a := (s.deadline? x.thread).getD 0
  let b := (s.deadline? y.thread).getD 0
  a < b || (a == b && precedes x y)

/-- The sleeping script whose sleep is the first to end by now. -/
def dueSleeper? (s : Sim n) : Option (Script n) :=
  ((s.scripts.filter fun x => s.isAsleep x.thread && s.isDue x.thread).mergeSort s.wakesBefore).head?

/-- Whether an instruction is the wait of a watchdog. -/
def watches : Instr n → Bool
  | .watching _ => true
  | _ => false

/-- Whether an instruction is the wait of a stop. -/
def awaitsStop : Instr n → Bool
  | .stopWait _ _ => true
  | _ => false

/-- The first thread whose wait ends by now. -/
def dueThread? (s : Sim n) (waits : Instr n → Bool) : Option ThreadId :=
  (List.range s.pool.threads.length).find? fun t => (s.pool.code t).head?.any waits && s.isDue t

/-- Ends the first wait that is due: a sleep, or else the watchdog's, or else that of a stop. -/
def endWait? (s : Sim n) : Option (Sim n) :=
  match s.dueSleeper? with
  | some x => some (s.advanceScript x).settle
  | none => match s.dueThread? watches with
    | some t => some (s.step t).settle
    | none => (s.dueThread? awaitsStop).map fun t => (s.step t).settle

/-- Ends the waits that are due, one after the other. -/
def endWaits (s : Sim n) : Nat → Sim n
  | 0 => s
  | k + 1 => match s.endWait? with
    | some s' => s'.endWaits k
    | none => s

/-- Moves the clock, and ends the waits that are due then. -/
def advance (s : Sim n) (nanos : Nat) : Sim n :=
  { s with pool := s.pool.act (.advance nanos) }.endWaits s.patience

end Sim

end FairShare.Simulation

import FairShare.Simulation.Script

/-!
# Simulations

A simulation drives a scheduler through its actions, in one fixed order, with a clock that moves only when it
is told to. Its computers run scripts.
-/

namespace FairShare.Simulation

open Scheduler

/-- A computer of a simulation. -/
structure Computer (n : Nat) where
  /-- The host's part of its executor. -/
  host : Host
  /-- The script of each slice. -/
  scripts : List (List (Step n))
  /-- Whether it hears nothing of requests to say what it is doing. -/
  quiet : Bool := false

/-- Something that happened in a simulation. -/
inductive Happening (n : Nat) where
  /-- An event of the scheduler. -/
  | event (e : Event n)
  /-- A remark of a script. -/
  | remark (r : Remark n)

/-- A simulation. -/
structure Sim (n : Nat) where
  /-- The computers. -/
  computers : Vector (Computer n) n
  /-- The scheduler. -/
  pool : Pool n
  /-- How many slices each computer has had. -/
  slices : Vector Nat n
  /-- The scripts that run. -/
  scripts : List (Script n) := []
  /-- The threads that wait at gates, in the order in which they came there. -/
  gates : List ThreadId := []
  /-- The thread whose script goes on until it blocks or ends. -/
  turn : Option ThreadId := none
  /-- The thread that took the last step. -/
  last : Option ThreadId := none
  /-- The thread that stops the scheduler. -/
  stopper : Option ThreadId := none
  /-- How many events of the scheduler were taken over. -/
  seen : Nat := 0
  /-- What happened. -/
  happenings : Array (Happening n) := #[]
  /-- How many moves are enough to get everything blocked. -/
  patience : Nat

namespace Sim

variable {n : Nat}

/-- Takes over the events of the scheduler. -/
def collect (s : Sim n) : Sim n :=
  let news := s.pool.history.extract s.seen s.pool.history.size
  { s with
    seen := s.pool.history.size
    happenings := s.happenings ++ news.map .event }

/-- Adds a remark. -/
def remark (s : Sim n) (r : Remark n) : Sim n :=
  let s := s.collect
  { s with happenings := s.happenings.push (.remark r) }

/-- The script of a thread. -/
def script? (s : Sim n) (t : ThreadId) : Option (Script n) := s.scripts.find? (·.thread == t)

/-- Changes the script of a thread. -/
def setScript (s : Sim n) (x : Script n) : Sim n :=
  { s with scripts := s.scripts.map fun y => if y.thread == x.thread then x else y }

/-- Begins the script of a thread that is within the work of an executor. -/
def beginScript (s : Sim n) (t : ThreadId) : Sim n :=
  match s.pool.code t with
  | .work w e :: _ =>
    if (s.script? t).isSome then s
    else
      let slice := s.slices.get e
      { s with
        slices := s.slices.set e.val (slice + 1) e.isLt
        scripts := s.scripts ++ [⟨t, w, e, slice, (s.computers.get e).scripts[slice]?.getD [], .waiting⟩] }
  | _ => s

/-- Lets a thread take a step. -/
def step (s : Sim n) (t : ThreadId) : Sim n :=
  { s with pool := s.pool.step t, last := some t }.beginScript t

/-- The work that a thread is within does something. -/
def perform (s : Sim n) (t : ThreadId) (a : WorkAction n) : Sim n :=
  { s with pool := s.pool.act (.work t a), last := some t }

/-- Ends the turn of a script. -/
def endTurn (s : Sim n) : Sim n := { s with turn := none }

/-- A script is over, and the work of its slice returns. -/
def finish (s : Sim n) (x : Script n) (result : WorkResult) : Sim n :=
  { s.perform x.thread (.finish result) with
    scripts := s.scripts.filter (·.thread != x.thread) }.endTurn

/-- Whether the worker of a script was interrupted. -/
def isInterrupted (s : Sim n) (x : Script n) : Bool := s.pool.interrupted x.worker

/-- The executor of a script. -/
def executor (s : Sim n) (x : Script n) : Executor := s.pool.executor x.computer

/-- What the last call of a thread came to. -/
def answer (s : Sim n) (t : ThreadId) : Answer :=
  match s.pool.threads[t]? with
  | some thread => thread.answer
  | none => .unit

/-- A remark that a step of a script ended. -/
def complete (s : Sim n) (x : Script n) (step : Step n) (result : StepResult) : Sim n :=
  s.remark (.completed x.computer x.slice step result)

/-- A new simulation. -/
def create (computers : Vector (Computer n) n) (pool : Pool n) : Sim n :=
  let steps := computers.foldl (fun steps c => steps + c.scripts.length + c.scripts.flatten.length) 0
  { computers, pool
    slices := Vector.replicate n 0
    patience := 1000 * (pool.slots.length + 2) * (steps + n + 2) }

end Sim

end FairShare.Simulation

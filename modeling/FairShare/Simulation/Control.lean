import FairShare.Simulation.Order

/-!
# Control of a simulation

What can be done to a simulation from outside, besides letting time pass. Each of these runs everything until
it is blocked again.
-/

namespace FairShare.Simulation

open Scheduler

namespace Sim

variable {n : Nat}

/-- Makes a call from outside: the thread on which it is made. -/
def call (s : Sim n) (c : Call n) : Sim n × ThreadId :=
  let t := s.pool.threads.length
  ({ s with pool := s.pool.act (.call c), last := some t }.settle, t)

/-- What a thread's call was answered. -/
def result (s : Sim n) (t : ThreadId) : Except SchedulerError Unit :=
  match s.answer t with
  | .result r => r
  | _ => .ok ()

/-- Opens the gate at which a computer has waited the longest; whether there is one. -/
def openGate (s : Sim n) (e : Fin n) : Sim n × Bool :=
  match s.gates.findSome? fun t => (s.script? t).filter (·.computer == e) with
  | none => (s, false)
  | some x =>
    ({ s.setScript { x with progress := .gateOpened } with
      gates := s.gates.filter (· != x.thread) }.settle, true)

/-- Has a stop finish: the clock moves to its deadline if it is still waiting. -/
def finishStop (s : Sim n) (t : ThreadId) : Sim n × Except SchedulerError Unit :=
  let s := match s.deadline? t with
    | some deadline => s.advance (deadline - s.pool.clock)
    | none => s
  (s, s.result t)

/-- Stops the scheduler. -/
def stop (s : Sim n) (timeout : Duration) : Sim n × Except SchedulerError Unit :=
  let (s, t) := s.call (.stop timeout)
  s.finishStop t

/-- Begins to stop the scheduler. -/
def beginStop (s : Sim n) (timeout : Duration) : Sim n :=
  let (s, t) := s.call (.stop timeout)
  { s with stopper := some t }

/-- Has the stop that was begun finish, if there is one. -/
def endStop? (s : Sim n) : Option (Sim n × Except SchedulerError Unit) :=
  s.stopper.map fun t =>
    let (s, r) := s.finishStop t
    ({ s with stopper := none }, r)

/-- Lets go of the scheduler. -/
def release (s : Sim n) : Sim n := { s with pool := s.pool.act .release }

end Sim

end FairShare.Simulation

import FairShare.Allocation
import FairShare.Simulation.Basic

/-!
# The turn of a script

A script whose turn it is goes on to its next remark. A step that calls the scheduler hands the thread over
to it, and ends once the thread is within the work of its executor again.
-/

namespace FairShare.Simulation

open Scheduler

namespace Sim

variable {n : Nat}

/-- Begins a step that takes several steps of the thread. -/
def enter (s : Sim n) (x : Script n) (step : Step n) (a : WorkAction n) : Sim n :=
  (s.setScript { x with progress := .within step }).perform x.thread a

/-- Begins the next step of a script, which stands behind it already. -/
def begin (s : Sim n) (x : Script n) (step : Step n) : Sim n :=
  let interrupted := s.isInterrupted x
  let timeout := (s.executor x).timeout
  match step with
  | .gate =>
    { (s.setScript { x with progress := .atGate }).remark (.entered x.computer x.slice step) with
      gates := s.gates ++ [x.thread] }.endTurn
  | .sleep nanos | .trySleep nanos =>
    (s.remark (.entered x.computer x.slice step)).enter x step (.sleep nanos)
  | .check =>
    let s := s.complete x step (.checked timeout.flags.check)
    match timeout.flags.check with
    | .ok () => s
    | .error abort => s.finish x (.error (.aborted abort))
  | .tryCheck => s.complete x step (.checked timeout.flags.check)
  | .interruptCheck =>
    let s := s.complete x step (.flag !interrupted)
    if interrupted then s.finish x (.error .interrupted) else s
  | .interrupted => s.complete x step (.flag interrupted)
  | .look => s.complete x step (.look (s.executor x).stage timeout s.pool.clock)
  | .refresh => s.enter x step (.call (.refresh x.computer))
  | .arm budget => s.enter x step (.call (.arm x.computer budget))
  | .hardAbort e => s.enter x step (.call (.hardAbort e))
  | .submit e => s.enter x step (.call (.submit e))
  | .unload e => s.enter x step (.call (.unload e))
  | .observe o => s.enter x step (.observe o)
  | .allocate bytes =>
    if Allocation.granted bytes then s.enter x step (.allocate bytes) else s.complete x step .unit
  | .done => (s.complete x step .unit).finish x .ok
  | .fail e => (s.complete x step .unit).finish x (.error e)
  | .crash reason => (s.complete x step .unit).finish x (.crashed reason)

/-- Ends a step that took several steps of the thread. -/
def endStep (s : Sim n) (x : Script n) (step : Step n) : Sim n :=
  let s := s.setScript { x with progress := .between }
  let timeout := (s.executor x).timeout
  let completed := match s.answer x.thread with
    | .slept completed => completed
    | _ => true
  match step with
  | .sleep _ =>
    let s := s.complete x step (.flag completed)
    if completed then s else s.finish x (.error .interrupted)
  | .trySleep _ => s.complete x step (.flag completed)
  | .refresh => s.complete x step (.timeout timeout s.pool.clock)
  | .arm _ => s.complete x step (.left (timeout.remainingTime s.pool.clock))
  | .hardAbort _ =>
    s.complete x step (.flag (match s.answer x.thread with
      | .raised newly => newly
      | _ => false))
  | .submit _ =>
    s.complete x step (.submitted (match s.answer x.thread with
      | .result r => r
      | _ => .ok ()))
  | .unload e => s.complete x step (.flag (s.pool.executor e).unloaded)
  | _ => s.complete x step .unit

/-- Whether a thread is asleep. -/
def isAsleep (s : Sim n) (t : ThreadId) : Bool :=
  match s.pool.code t with
  | .sleep _ _ :: _ => true
  | _ => false

/-- A thread that is asleep looks whether it was interrupted, and if not, whether its time has come. -/
def rouse (s : Sim n) (t : ThreadId) : Sim n :=
  let s := s.step t
  match s.pool.code t with
  | .doze _ _ :: _ => s.step t
  | _ => s

/-- A script, whose thread has nothing else to do, goes on. -/
def advanceScript (s : Sim n) (x : Script n) : Sim n :=
  let s := { s with turn := some x.thread }
  match x.progress with
  | .waiting =>
    (s.setScript { x with progress := .between }).remark
      (.began x.computer x.slice (s.executor x).stage)
  | .between =>
    match x.steps with
    | [] => (s.remark (.ended x.computer x.slice)).finish x .ok
    | step :: rest =>
      let x := { x with steps := rest }
      (s.setScript x).begin x step
  | .gateOpened => (s.setScript { x with progress := .between }).complete x .gate .opened
  | .within step =>
    if s.isAsleep x.thread then
      let s := s.rouse x.thread
      if s.isAsleep x.thread then s.endTurn else s
    else s.endStep x step
  | .atGate => s.endTurn

end Sim

end FairShare.Simulation

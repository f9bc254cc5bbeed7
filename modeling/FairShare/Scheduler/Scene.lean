import FairShare.Metrics.Run
import FairShare.Scheduler.Run

/-!
# A scheduler among its observers

While a scheduler runs, callers start and stop observers of its metrics context and use the context itself. A start marks
the observer and clears its records before it registers it, and a stop does so before it takes it off; anything can happen
in between but another start or stop of that observer, which comes after it.
-/

namespace FairShare.Scheduler

/-- A scheduler, and which observers are being started or stopped. -/
structure Scene (n : Nat) where
  pool : Pool n
  /-- Whether an observer is being started, or being stopped, if it is either. -/
  pending : Nat → Option Bool

/-- Something that can happen to a scheduler or to its metrics context. -/
inductive Cue (n : Nat) where
  /-- It happens to the scheduler. -/
  | act (a : Action n)
  /-- A caller begins to start an observer, or to stop it. -/
  | turn (observer : Nat) (on : Bool)
  /-- The caller goes on to register the observer, or to take it off. -/
  | conclude (observer : Nat)
  /-- Somebody makes another call on the context. -/
  | tell (call : Metrics.ContextCall)

namespace Scene

variable {n : Nat}

/-- A scheduler of which no observer is being started or stopped. -/
def quiet (pool : Pool n) : Scene n where
  pool
  pending _ := none

/-- A scene with another metrics context. -/
def setContext (s : Scene n) (context : Metrics.Context) : Scene n :=
  { s with pool := { s.pool with context } }

/-- A scene in which an observer is being turned, or no longer. -/
def setPending (s : Scene n) (i : Nat) (p : Option Bool) : Scene n :=
  { s with pending := fun j => if j = i then p else s.pending j }

/-- What happens. -/
def play (s : Scene n) : Cue n → Scene n
  | .act a => { s with pool := s.pool.act a }
  | .turn i on =>
    if (s.pending i).isSome then s
    else
      let (context, was) := s.pool.context.setTracking i on
      (s.setContext context).setPending i (if was = on then none else some on)
  | .conclude i =>
    match s.pending i with
    | none => s
    | some true => (s.setContext (s.pool.context.addObserver i).1).setPending i none
    | some false => (s.setContext (s.pool.context.removeObserver i).1).setPending i none
  | .tell call => s.setContext (s.pool.context.after call)

/-- What a sequence of cues leaves. -/
def run (s : Scene n) (cues : List (Cue n)) : Scene n := cues.foldl play s

end Scene

end FairShare.Scheduler

import FairShare.Metrics.Context

/-!
# Runs of a context

What can be done with a context and its observers, one call after the other. Computers make their
observations through adapters, which pass them on to the context. Which of the host's observers fail can
be another matter at every call.
-/

namespace FairShare.Metrics

/-- A call on a context or on one of its observers. -/
inductive ContextCall where
  /-- An observer is started. -/
  | start (observer : Nat)
  /-- An observer is stopped. -/
  | stop (observer : Nat)
  /-- An observer is registered. -/
  | add (observer : Nat)
  /-- An observer is taken off. -/
  | remove (observer : Nat)
  /-- A computer makes an observation. -/
  | observe (computer : ComputerId) (o : Observation)
  /-- A computer is gone for good. -/
  | unload (computer : ComputerId)
  /-- The context is shut down. -/
  | shutdown
  deriving DecidableEq

namespace Context

/-- What a call leaves. -/
def after (c : Context) : ContextCall → Context
  | .start i => (c.start i).1
  | .stop i => (c.stop i).1
  | .add i => (c.addObserver i).1
  | .remove i => (c.removeObserver i).1
  | .observe computer o => (c.observe computer o).1
  | .unload computer => (c.computerUnloaded computer).1
  | .shutdown => c.shutdown.1

/-- What a sequence of calls leaves. -/
def run (c : Context) (calls : List ContextCall) : Context := calls.foldl after c

/-- What a call answers, if it answers anything. -/
def answer? (c : Context) : ContextCall → Option Bool
  | .start i => some (c.start i).2
  | .stop i => some (c.stop i).2
  | .add i => some (c.addObserver i).2
  | .remove i => some (c.removeObserver i).2
  | .observe _ _ | .unload _ | .shutdown => none

/-- What is noted of a call. -/
def notes (c : Context) : ContextCall → List Note
  | .observe computer o => (c.observe computer o).2
  | .unload computer => (c.computerUnloaded computer).2
  | .shutdown => c.shutdown.2
  | .start _ | .stop _ | .add _ | .remove _ => []

end Context

/-! ## Observers that fail now and then -/

/-- The same observer, which fails from now on or does not if it belongs to the host. -/
def Observer.withFails (fails : Bool) : Observer → Observer
  | .host h => .host { h with fails }
  | o => o

/-- A call, and which of the host's observers fail at it. -/
structure Occasion where
  /-- The call. -/
  call : ContextCall
  /-- Whether an observer fails if it is told something. -/
  fails : Nat → Bool

namespace Context

/-- The same context, of which these observers of the host fail. -/
def withFails (c : Context) (fails : Nat → Bool) : Context :=
  { c with observers := c.observers.mapIdx fun i o => o.withFails (fails i) }

/-- What an occasion leaves. -/
def meet (c : Context) (x : Occasion) : Context := (c.withFails x.fails).after x.call

/-- What is noted of an occasion. -/
def notesAt (c : Context) (x : Occasion) : List Note := (c.withFails x.fails).notes x.call

/-- What a sequence of occasions leaves. -/
def meetAll (c : Context) (xs : List Occasion) : Context := xs.foldl meet c

/-- What is noted of a sequence of occasions. -/
def transcript (c : Context) : List Occasion → List Note
  | [] => []
  | x :: xs => c.notesAt x ++ (c.meet x).transcript xs

end Context

end FairShare.Metrics

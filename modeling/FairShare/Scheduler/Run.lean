import FairShare.Scheduler.Step

/-!
# Runs of a scheduler

An action is the next step of a thread, or something that comes from outside: a call, something that the work
of a slice does, the return of that work, or the passing of time. A run is a sequence of actions in any
order, so it covers every way in which the threads can get ahead of each other.
-/

namespace FairShare.Scheduler

/-- Something that the work of a slice does. -/
inductive WorkAction (n : Nat) where
  /-- It calls the scheduler or an executor. -/
  | call (c : Call n)
  /-- It sleeps until interrupted. -/
  | sleep (nanos : Nat)
  /-- It makes an observation for its own computer. -/
  | observe (o : Metrics.Observation)
  /-- It is given memory. -/
  | allocate (bytes : UInt64)
  /-- It returns. -/
  | finish (result : WorkResult)

/-- Something that can happen to a scheduler. -/
inductive Action (n : Nat) where
  /-- A thread takes a step. -/
  | step (t : ThreadId)
  /-- A caller outside makes a call, on a thread of its own. -/
  | call (c : Call n)
  /-- The work that a thread is within does something. -/
  | work (t : ThreadId) (a : WorkAction n)
  /-- Time passes. -/
  | advance (nanos : Nat)
  /-- The host lets go of the scheduler. -/
  | release

variable {n : Nat}

/-- Whether a call keeps the scheduler in being until it returns. -/
def Call.holds : Call n → Bool
  | .stop _ => true
  | _ => false

namespace Pool

/-- The work of an executor, on a worker, does something: what the thread has to do for it, in place of
being within that work. -/
def perform (s : Pool n) (w : WorkerId) (e : Fin n) : WorkAction n → Pool n × List (Instr n)
  | .call c => (s, [.call c, .work w e])
  | .sleep nanos => (s, [.sleep w (s.clock + nanos), .work w e])
  | .observe o => (s, [.observe e o, .work w e])
  | .allocate bytes =>
    (s.modifyWorker w fun worker => { worker with allocated := wrapAdd worker.allocated bytes },
      [.work w e])
  | .finish result => (s.emit (.workEnded e w result), [.handle e result])

/-- What an action leaves. -/
def act (s : Pool n) : Action n → Pool n
  | .step t => s.step t
  | .call c => { s with threads := s.threads ++ [{ code := [.call c], holds := c.holds }] }
  | .work t a =>
    match s.code t with
    | .work w e :: rest =>
      let (s', front) := s.perform w e a
      s'.setCode t (front ++ rest)
    | _ => s
  | .advance nanos => { s with clock := s.clock + nanos }
  | .release => { s with held := false }

/-- What a sequence of actions leaves. -/
def run (s : Pool n) (actions : List (Action n)) : Pool n := actions.foldl act s

end Pool

end FairShare.Scheduler

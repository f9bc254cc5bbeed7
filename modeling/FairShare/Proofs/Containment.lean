import FairShare.Proofs.Cadence
import FairShare.Proofs.Guise

/-!
# The containment of failures

How the work of one slice ends is nobody else's business. Runs that are the same but for the result of one slice go the same
way: whatever the result, everything in the pool is the same but the last error of that executor, and the history but what
is reported of the result. Only after a fatal result the thread of the slice has one thing more to do, which is to tell the
host.
-/

namespace FairShare.Scheduler

variable {n : Nat}

open Instr

/-- What comes of telling the host of a fatal result, which is done once, and not after any other result. -/
def WorkResult.told (r : WorkResult) (e : Fin n) (host : Host) : List (Event n) :=
  if r.isFatal then
    .called e .abortWithError :: (host.failure .abortWithError).toList.map fun reason =>
      .reported (.callbackFailed host.computer .abortWithError reason)
  else []

/-- How a run goes on after the work of a slice returned on a thread. -/
inductive Course (n : Nat) where
  /-- The thread does not move any more. -/
  | returned (later : List (Action n))
  /-- The thread deals with the result, and does not move after that. -/
  | handled (meanwhile later : List (Action n))
  /-- The thread deals with the result and goes on, after it told the host if the result was fatal. -/
  | passed (meanwhile pause later : List (Action n))

namespace Course

/-- What happens from the return on, which depends on the result in nothing but whether the host is told. -/
def actions (t : ThreadId) (r : WorkResult) : Course n → List (Action n)
  | returned later => .work t (.finish r) :: later
  | handled meanwhile later => .work t (.finish r) :: meanwhile ++ .step t :: later
  | passed meanwhile pause later =>
    .work t (.finish r) :: meanwhile ++ .step t :: pause ++ (if r.isFatal then [.step t] else []) ++ later

/-- What happens while the thread stands at the result or at telling the host. -/
def waiting : Course n → List (Action n)
  | returned later => later
  | handled meanwhile later => meanwhile ++ later
  | passed meanwhile pause _ => meanwhile ++ pause

/-- What the thread has to do before it goes on. -/
def front (e : Fin n) (r : WorkResult) : Course n → List (Instr n)
  | returned _ => [.handle e r]
  | handled _ _ => r.teardown e
  | passed _ _ _ => []

/-- What comes of telling the host. -/
def told (e : Fin n) (host : Host) (r : WorkResult) : Course n → List (Event n)
  | returned _ | handled _ _ => []
  | passed _ _ _ => r.told e host

end Course

namespace Pool

variable {s : Pool n} {u : Guise n}

/-! ## Changes of a guise -/

/-- The host's part of an executor stays as it is. -/
theorem run_host (s : Pool n) (l : List (Action n)) (e : Fin n) : ((s.run l).executor e).host = (s.executor e).host := by
  induction l generalizing s with
  | nil => rfl
  | cons a l ih => exact (ih (s.act a)).trans (congrFun (Books.host_goes (act_goes s a)) e)

/-! ## Runs that differ in a result -/

section

variable {c : Pool n} {t : ThreadId} {w : WorkerId} {e : Fin n} {l : List (Action n)} {rest : List (Instr n)}

end

end Pool

end FairShare.Scheduler

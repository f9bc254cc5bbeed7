/-!
# Phases

A scheduler runs, then stops, then is closed, and never goes back.
-/

namespace FairShare.Scheduler

/-- How far the scheduler is on its way to the end. -/
inductive Phase where
  /-- It takes work. -/
  | running
  /-- It takes no more work, and workers only empty the run queue. -/
  | stopping
  /-- Everything has ended. -/
  | closed
  deriving DecidableEq

namespace Phase

/-- The name of a phase. -/
def name : Phase → String
  | running => "Running"
  | stopping => "Stopping"
  | closed => "Closed"

/-- The place of a phase in their order. -/
def rank : Phase → Nat
  | running => 0
  | stopping => 1
  | closed => 2

/-- The later of two phases. -/
def later (a b : Phase) : Phase := if a.rank < b.rank then b else a

/-- Whether the scheduler takes no more work. -/
def isStopping (p : Phase) : Bool := p != running

end Phase

end FairShare.Scheduler

/-!
# The run queue

The executors that wait, each with its virtual runtime and the number of its arrival, in ascending order of
the two: the one that ran least comes first, and of equals the one that came first.
-/

namespace FairShare.Scheduler

/-- A place in the run queue. -/
structure Entry (n : Nat) where
  /-- The virtual runtime of the executor. -/
  runtime : Nat
  /-- The number of its arrival. -/
  arrival : Nat
  /-- The executor. -/
  executor : Fin n
  deriving DecidableEq

/-- Whether one place comes before another. -/
def Entry.before {n : Nat} (a b : Entry n) : Bool :=
  a.runtime < b.runtime || (a.runtime == b.runtime && a.arrival < b.arrival)

/-- Puts a place where it belongs. -/
def Entry.insert {n : Nat} (e : Entry n) : List (Entry n) → List (Entry n)
  | [] => [e]
  | head :: rest => if e.before head then e :: head :: rest else head :: e.insert rest

end FairShare.Scheduler

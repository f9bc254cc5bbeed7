/-!
# Log records

What the library reports to whoever runs it. A log keeps the records of its own level and above.
-/

namespace FairShare

/-- How grave a record is. -/
inductive LogLevel where
  /-- Of interest when looking for faults. -/
  | debug
  /-- Something may be wrong. -/
  | warn
  /-- Something is wrong. -/
  | error
  deriving DecidableEq

namespace LogLevel

/-- The name of a level. -/
def name : LogLevel → String
  | debug => "DEBUG"
  | warn => "WARN"
  | error => "ERROR"

/-- The place of a level in their order. -/
def rank : LogLevel → Nat
  | debug => 0
  | warn => 1
  | error => 2

end LogLevel

/-- A record. -/
structure LogRecord where
  /-- How grave it is. -/
  level : LogLevel
  /-- What it says. -/
  message : String
  deriving DecidableEq

/-- Which records a log keeps: those of a level and above, or none. -/
abbrev LogFilter := Option LogLevel

/-- Whether a log keeps records of a level. -/
def LogFilter.keeps (f : LogFilter) (level : LogLevel) : Bool :=
  match f with
  | some least => least.rank ≤ level.rank
  | none => false

end FairShare

import FairShare.Numeric.Binary64
import FairShare.Text.Case

/-!
# Metrics

A metric is a counter, which counts occurrences, or an event, which is observed with a value of some
unit. Metrics are numbered in the order in which they are registered, and a metric's number is its
position in every table of readings.
-/

namespace FairShare.Metrics

/-- What the values of an event measure. -/
inductive MetricUnit where
  /-- A plain number. -/
  | count
  /-- Nanoseconds. -/
  | time
  /-- Bytes. -/
  | bytes
  deriving DecidableEq

/-- What is observed. -/
inductive MetricKind where
  /-- Occurrences. -/
  | counter
  /-- Values. -/
  | event (unit : MetricUnit)
  deriving DecidableEq

/-- A registered metric. -/
@[ext] structure Metric where
  /-- Its number. -/
  id : Nat
  /-- Its name, in words joined by underscores. -/
  name : String
  /-- What is observed. -/
  kind : MetricKind
  deriving DecidableEq

/-- Bytes in a kibibyte. -/
def kibibyte : Nat := 1024

/-- Bytes in a mebibyte. -/
def mebibyte : Nat := 1024 * kibibyte

/-- Bytes in a gibibyte. -/
def gibibyte : Nat := 1024 * mebibyte

/-- The text of a quotient in floating point, with one decimal. -/
def tenths (n d : Nat) : String := Numeric.fixed 1 (Numeric.quotient n d)

/-- A number of bytes in the largest unit that it reaches. -/
def formatBytes (n : Nat) : String :=
  if gibibyte ≤ n then tenths n gibibyte ++ " GiB"
  else if mebibyte ≤ n then tenths n mebibyte ++ " MiB"
  else if kibibyte ≤ n then tenths n kibibyte ++ " KiB"
  else toString n ++ " B"

/-- The text of a value of a unit. -/
def MetricUnit.format (unit : MetricUnit) (value : UInt64) : String :=
  match unit with
  | count => toString value.toNat
  | time => tenths value.toNat 1000000 ++ "ms"
  | bytes => formatBytes value.toNat

/-- The unit of a metric's values; a counter counts. -/
def MetricKind.unit : MetricKind → MetricUnit
  | counter => .count
  | event unit => unit

/-- Whether a metric is a counter. -/
def MetricKind.isCounter : MetricKind → Bool
  | counter => true
  | event _ => false

namespace Metric

/-- The words of a name; underscores without a word between them join nothing. -/
def words (name : String) : List (List Char) :=
  (name.toList.splitOn '_').filter (!·.isEmpty)

/-- A word with its first letter in uppercase. -/
def capitalize : List Char → List Char
  | [] => []
  | c :: rest => Text.upperChar c ++ rest

/-- The name as people read it, such as `Computer tasks` for `computer_tasks`. -/
def displayName (m : Metric) : String :=
  match words m.name with
  | [] => ""
  | first :: rest => String.ofList (List.intercalate [' '] (capitalize first :: rest))

/-- The name in camel case, such as `computerTasks` for `computer_tasks`: a letter after underscores is
in uppercase, unless nothing stands before them. -/
def camelChars (started raise : Bool) : List Char → List Char
  | [] => []
  | '_' :: rest => camelChars started started rest
  | c :: rest => (if raise then Text.upperChar c else [c]) ++ camelChars true false rest

/-- The name of a metric in camel case. -/
def camelName (m : Metric) : String := String.ofList (camelChars false false m.name.toList)

end Metric

end FairShare.Metrics

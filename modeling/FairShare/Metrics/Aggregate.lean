import FairShare.Json.Basic
import FairShare.Metrics.Registry

/-!
# Aggregates

An event can be read in four ways, a counter in one. A `Field` is a metric with a way to read it. Its name
is the metric's, followed by an underscore and a suffix unless it is read plainly; `Field.parse` reads such
a name, taking it for a metric's own name where it can.
-/

namespace FairShare.Metrics

/-- A way to read a metric. -/
inductive Aggregate where
  /-- The sum of an event's values, the count of a counter. -/
  | none
  /-- How often it was observed. -/
  | count
  /-- The mean value. -/
  | avg
  /-- The largest value. -/
  | max
  deriving DecidableEq

namespace Aggregate

/-- All aggregates. -/
def all : List Aggregate := [none, count, avg, max]

/-- What the name of a field ends in. -/
def suffix : Aggregate → String
  | none => ""
  | count => "count"
  | avg => "avg"
  | max => "max"

/-- The aggregate of a suffix that says something. -/
def ofSuffix? (s : String) : Option Aggregate :=
  if s = "count" then some count else if s = "avg" then some avg else if s = "max" then some max
  else Option.none

/-- The name of an aggregate. -/
def name : Aggregate → String
  | none => "none"
  | a => a.suffix

/-- The text of an aggregate. -/
def text : Aggregate → String
  | none => "None"
  | count => "Count"
  | avg => "Avg"
  | max => "Max"

/-- The aggregate of a name. -/
def ofName? (s : String) : Option Aggregate := all.find? (·.name == s)

/-- Reads an aggregate: its name, which may also be the only name in an object and stand for `null`. -/
def ofJson? : Json → Option Aggregate
  | .string (some s) => ofName? s
  | .object [(some s, .null)] => ofName? s
  | _ => Option.none

/-- An aggregate as a document. -/
def toJson (a : Aggregate) : Json := .string (some a.name)

end Aggregate

/-- A metric with a way to read it. -/
@[ext] structure Field where
  /-- The metric. -/
  metric : Metric
  /-- The way to read it. -/
  aggregate : Aggregate
  deriving DecidableEq

namespace Field

/-- The name of a field. -/
def nameOf (base : String) : Aggregate → String
  | .none => base
  | a => base ++ "_" ++ a.suffix

/-- The name of a field. -/
def name (f : Field) : String := nameOf f.metric.name f.aggregate

/-- The name as people read it, such as `Computer tasks (avg)`. -/
def displayName (f : Field) : String :=
  match f.aggregate with
  | .none => f.metric.displayName
  | a => s!"{f.metric.displayName} ({a.suffix})"

/-- Pairs a metric with an aggregate; a counter can only be read plainly. -/
def create (m : Metric) (a : Aggregate) : Except MetricsError Field :=
  if m.kind.isCounter && a != .none then .error (.unknownAggregate (m.name ++ "_" ++ a.suffix))
  else .ok ⟨m, a⟩

/-- The text before the last underscore and the text behind it. -/
def splitLast? (s : String) : Option (String × String) :=
  let backwards := s.toList.reverse
  match backwards.dropWhile (· != '_') with
  | [] => none
  | _ :: base => some (String.ofList base.reverse, String.ofList (backwards.takeWhile (· != '_')).reverse)

/-- Reads the name of a field. -/
def parse (r : Registry) (s : String) : Except MetricsError Field :=
  match r.find? s with
  | some m => create m .none
  | none => match splitLast? s with
    | none => .error (.unknownMetric s)
    | some (base, suffix) => match Aggregate.ofSuffix? suffix with
      | none => .error (.unknownAggregate s)
      | some a => match r.find? base with
        | none => .error (.unknownMetric base)
        | some m => create m a

/-- The fields of a metric. -/
def ofMetric (m : Metric) : List Field :=
  match m.kind with
  | .counter => [⟨m, .none⟩]
  | .event _ => Aggregate.all.map (⟨m, ·⟩)

/-- The fields of all metrics. -/
def all (r : Registry) : List Field := r.metrics.flatMap ofMetric

end Field

end FairShare.Metrics

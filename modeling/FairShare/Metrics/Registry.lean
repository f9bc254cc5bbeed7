import FairShare.Metrics.Metric

/-!
# The registry of metrics

Metrics are registered once, under distinct names, and numbered in that order. Beside the metrics stands a
table of their names with the number that each name was registered under. A registry only grows, so a metric
that was handed out stays the metric of its number and of its name.
-/

namespace FairShare.Metrics

/-- What can be wrong with a metric's name. -/
inductive MetricsError where
  /-- The name is taken. -/
  | duplicateMetric (name : String)
  /-- No metric of the wanted kind has the name. -/
  | unknownMetric (name : String)
  /-- The metric cannot be read in this way. -/
  | unknownAggregate (name : String)
  deriving DecidableEq

/-- The explanation of an error. -/
def MetricsError.message : MetricsError → String
  | duplicateMetric name => s!"metric already registered: {name}"
  | unknownMetric name => s!"unknown metric: {name}"
  | unknownAggregate name => s!"unknown aggregate: {name}"

/-- The registered metrics, each at the position that is its number. -/
@[ext] structure Registry where
  /-- The metrics in the order of registration. -/
  metrics : List Metric := []
  /-- The number of each name. -/
  numbers : List (String × Nat) := []

namespace Registry

/-- How many metrics there are. -/
def size (r : Registry) : Nat := r.metrics.length

/-- The metric of a number. -/
def get? (r : Registry) (id : Nat) : Option Metric := r.metrics[id]?

/-- The number of a name, if it is taken. -/
def number? (r : Registry) (name : String) : Option Nat := r.numbers.lookup name

/-- The metric of a name. -/
def find? (r : Registry) (name : String) : Option Metric := (r.number? name).bind r.get?

/-- Adds a metric under the next number. -/
def push (r : Registry) (name : String) (kind : MetricKind) : Metric × Registry :=
  let m : Metric := ⟨r.size, name, kind⟩
  (m, ⟨r.metrics ++ [m], (name, r.size) :: r.numbers⟩)

/-- Registers a metric, if its name is not taken. -/
def register (r : Registry) (name : String) (kind : MetricKind) :
    Except MetricsError (Metric × Registry) :=
  if (r.number? name).isSome then .error (.duplicateMetric name) else .ok (r.push name kind)

/-- The counter of a name. -/
def counter (r : Registry) (name : String) : Except MetricsError Metric :=
  match r.find? name with
  | some m => if m.kind.isCounter then .ok m else .error (.unknownMetric name)
  | none => .error (.unknownMetric name)

/-- The event of a name. -/
def event (r : Registry) (name : String) : Except MetricsError Metric :=
  match r.find? name with
  | some m => if m.kind.isCounter then .error (.unknownMetric name) else .ok m
  | none => .error (.unknownMetric name)

end Registry

end FairShare.Metrics

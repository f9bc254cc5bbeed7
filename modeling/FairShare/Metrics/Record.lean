import FairShare.ComputerId
import FairShare.Metrics.Aggregate
import FairShare.Word

/-!
# Records

A record holds what was observed of one computer: for each metric how often it was observed, the sum of
its values and the largest of them, in three tables indexed by the metric's number. All three grow
together, to a size that the first of them decides. Counts and sums stop at the largest word.

A record that was read from a document can have tables of different sizes. An observation that finds a
table too short breaks off there and keeps what it did before (`observe` says whether it was completed).
-/

namespace FairShare.Metrics

/-- Something that was observed. -/
inductive Observation where
  /-- A counter counts one occurrence. -/
  | counter (metric : Metric)
  /-- An event was observed with a value. -/
  | event (metric : Metric) (value : UInt64)
  deriving DecidableEq

/-- The metric that was observed. -/
def Observation.metric : Observation → Metric
  | counter m => m
  | event m _ => m

/-- What was observed of one computer. -/
@[ext] structure Record where
  /-- The computer. -/
  computer : ComputerId
  /-- How often each metric was observed. -/
  counts : List UInt64
  /-- The sum of each metric's values. -/
  totals : List UInt64
  /-- The largest of each metric's values. -/
  maxima : List UInt64
  deriving DecidableEq

namespace Record

/-- The size of the tables of a new record. -/
def initialCapacity : Nat := 8

/-- An empty record. -/
def create (computer : ComputerId) : Record :=
  let empty := List.replicate initialCapacity 0
  ⟨computer, empty, empty, empty⟩

/-- How many metrics the record has room for. -/
def capacity (r : Record) : Nat := r.counts.length

/-- The size that a table of `size` places is doubled to, to hold a place `i`. -/
def grownSize (size i : Nat) : Nat :=
  if h : 0 < size ∧ size ≤ i then grownSize (2 * size) i else size
termination_by i + 1 - size
decreasing_by omega

/-- A table of another size: cut off, or filled up with zeros. -/
def resize (table : List UInt64) (size : Nat) : List UInt64 :=
  table.take size ++ List.replicate (size - table.length) 0

/-- Makes room for a metric. Only the size of the first table is looked at. -/
def reserve (r : Record) (i : Nat) : Record :=
  if i < r.counts.length then r
  else
    let size := grownSize (max r.counts.length 1) i
    { r with
      counts := resize r.counts size
      totals := resize r.totals size
      maxima := resize r.maxima size }

/-- Changes a place of a table, if the table has it. -/
def update? (table : List UInt64) (i : Nat) (f : UInt64 → UInt64) : Option (List UInt64) :=
  table[i]?.map fun x => table.set i (f x)

/-- Counts an occurrence of the metric `i`. -/
def countAt? (r : Record) (i : Nat) : Option Record :=
  (update? r.counts i (satAdd · 1)).map fun counts => { r with counts }

/-- Adds a value of the metric `i` to its sum. -/
def addAt? (r : Record) (i : Nat) (value : UInt64) : Option Record :=
  (update? r.totals i (satAdd · value)).map fun totals => { r with totals }

/-- Compares a value of the metric `i` with the largest. -/
def raiseAt? (r : Record) (i : Nat) (value : UInt64) : Option Record :=
  (update? r.maxima i (max · value)).map fun maxima => { r with maxima }

/-- Takes steps up to the first that cannot be taken; whether all were. -/
def steps (r : Record) : List (Record → Option Record) → Record × Bool
  | [] => (r, true)
  | f :: rest => match f r with
    | some r' => steps r' rest
    | none => (r, false)

/-- Takes in an observation; whether it was completed. -/
def observe (r : Record) (o : Observation) : Record × Bool :=
  let i := o.metric.id
  match o with
  | .counter _ => (r.reserve i).steps [(·.countAt? i)]
  | .event _ value => (r.reserve i).steps [(·.countAt? i), (·.addAt? i value), (·.raiseAt? i value)]

/-- Takes in an observation several times, up to the first that is not completed. -/
def observeTimes (r : Record) (o : Observation) : Nat → Record × Bool
  | 0 => (r, true)
  | n + 1 => match r.observe o with
    | (r', true) => r'.observeTimes o n
    | (r', false) => (r', false)

/-- A place of a table; zero beyond its end. -/
def place (table : List UInt64) (i : Nat) : UInt64 := table[i]?.getD 0

/-- The quotient of a sum and a count; zero for nothing. -/
def mean (total count : UInt64) : UInt64 := if count = 0 then 0 else total / count

/-- Reads a metric. A counter tells its count whichever way it is read. -/
def get (r : Record) (m : Metric) (a : Aggregate) : UInt64 :=
  let count := place r.counts m.id
  if m.kind.isCounter then count
  else
    let total := place r.totals m.id
    match a with
    | .none => total
    | .count => count
    | .avg => mean total count
    | .max => place r.maxima m.id

/-- Reads a field. -/
def read (r : Record) (f : Field) : UInt64 := r.get f.metric f.aggregate

/-- Reads a metric, in its unit; how often it was observed is a plain number. -/
def getFormatted (r : Record) (m : Metric) (a : Aggregate) : String :=
  let unit : MetricUnit := match a with
    | .count => .count
    | _ => m.kind.unit
  unit.format (r.get m a)

/-- The names of the fields. -/
def fieldNames : List String := ["computer", "counts", "totals", "max"]

/-- A record as a document. -/
def toJson (r : Record) : Json :=
  let table (t : List UInt64) : Json := .array (t.map fun x => .natural x.toNat)
  .object [Json.field "computer" (.natural r.computer.number.toNat), Json.field "counts" (table r.counts),
    Json.field "totals" (table r.totals), Json.field "max" (table r.maxima)]

/-- Reads a record. All fields have to be written. -/
def ofJson? (j : Json) : Option Record := do
  match ← j.fields? fieldNames .ignored with
  | [some computer, some counts, some totals, some maxima] =>
    return ⟨⟨← computer.word32?⟩, ← counts.words?, ← totals.words?, ← maxima.words?⟩
  | _ => none

/-- Puts records in order by a field, the largest first; equal ones stay as they stood. -/
def sortBy (f : Field) (records : List Record) : List Record :=
  records.mergeSort fun a b => b.read f ≤ a.read f

end Record

end FairShare.Metrics

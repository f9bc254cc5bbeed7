import FairShare.Metrics.Record
import FairShare.Text.Record

/-!
# Observers

An observer is told what is observed of every computer, and which computers are gone for good. The library
has two: one that keeps a record for each computer, in the order in which they were first observed, and one
that keeps sums over all computers. The host adds its own, of which only what it does to a caller matters:
whether it fails, and whether it cares for computers that are gone.
-/

namespace FairShare.Metrics

/-- Something that observers are told of a computer. -/
inductive Call where
  /-- It made an observation. -/
  | observed (observation : Observation)
  /-- It will never run again. -/
  | unloaded
  deriving DecidableEq

/-! ## A record for each computer -/

/-- The observer that keeps a record for each computer while it is tracking. -/
@[ext] structure RecordKeeper where
  /-- Whether it takes observations in. -/
  tracking : Bool := false
  /-- The records, in the order in which their computers were first observed. -/
  records : List Record := []
  /-- Where among the records the one of each computer stands. -/
  places : List (ComputerId × Nat) := []

namespace RecordKeeper

/-- Where the record of a computer stands, if it has one. -/
def place? (k : RecordKeeper) (computer : ComputerId) : Option Nat := k.places.lookup computer

/-- Forgets every record. -/
def clear (k : RecordKeeper) : RecordKeeper := { k with records := [], places := [] }

/-- Where the record of a computer stands, which is begun behind all others if there is none. -/
def enter (k : RecordKeeper) (computer : ComputerId) : RecordKeeper × Nat :=
  match k.place? computer with
  | some i => (k, i)
  | none =>
    ({ k with
        records := k.records ++ [Record.create computer]
        places := (computer, k.records.length) :: k.places }, k.records.length)

/-- Takes an observation into the record of its computer. -/
def record (k : RecordKeeper) (computer : ComputerId) (o : Observation) : RecordKeeper :=
  let (k', i) := k.enter computer
  { k' with records := k'.records.modify i fun r => (r.observe o).1 }

/-- Where the record at `j` stands once the one at `i` is gone. -/
def closeUp (i j : Nat) : Nat := if i < j then j - 1 else j

/-- Drops the record of a computer; those behind it close up. -/
def evict (k : RecordKeeper) (computer : ComputerId) : RecordKeeper :=
  match k.place? computer with
  | none => k
  | some i =>
    { k with
      records := k.records.eraseIdx i
      places := (k.places.filter (·.1 != computer)).map fun (other, j) => (other, closeUp i j) }

/-- What is left to do when told something. -/
def hear (k : RecordKeeper) (computer : ComputerId) : Call → RecordKeeper
  | .observed o => if k.tracking then k.record computer o else k
  | .unloaded => k.evict computer

/-- The record of a computer. -/
def get? (k : RecordKeeper) (computer : ComputerId) : Option Record :=
  (k.place? computer).bind (k.records[·]?)

/-- The text of an observer. -/
def text (k : RecordKeeper) : String :=
  Text.record "BasicComputerMetricsObserver"
    [("tracking", Text.ofBool k.tracking), ("computers", toString k.records.length)] false

end RecordKeeper

/-! ## Sums over all computers -/

/-- What was observed of a metric on all computers. -/
@[ext] structure Total where
  /-- The sum of the values. -/
  value : UInt64 := 0
  /-- How often it was observed. -/
  count : UInt64 := 0
  deriving DecidableEq

/-- The observer that keeps sums over all computers. Its sums come round past zero. -/
@[ext] structure TotalKeeper where
  /-- Whether it was started. -/
  tracking : Bool := false
  /-- The sums, by the number of the metric. -/
  totals : List Total

namespace TotalKeeper

/-- Nothing was observed yet of the metrics of a registry. -/
def create (r : Registry) : TotalKeeper := { totals := r.metrics.map fun _ => {} }

/-- A sum after an observation. -/
def add (t : Total) : Observation → Total
  | .counter _ => { t with count := wrapAdd t.count 1 }
  | .event _ value => ⟨wrapAdd t.value value, wrapAdd t.count 1⟩

/-- What is left to do when told something. Metrics that it does not know are passed over. -/
def hear (k : TotalKeeper) : Call → TotalKeeper
  | .observed o => { k with totals := k.totals.modify o.metric.id (add · o) }
  | .unloaded => k

/-- Sets the value of a key in a table in order of the keys. -/
def insert (key : String) (value : UInt64) : List (String × UInt64) → List (String × UInt64)
  | [] => [(key, value)]
  | (k, v) :: rest =>
    if key < k then (key, value) :: (k, v) :: rest
    else if key = k then (k, value) :: rest
    else (k, v) :: insert key value rest

/-- The attributes of a metric: how often a counter or an event was observed, and the sum of an event. -/
def attributesOf (m : Metric) (t : Total) : List (String × UInt64) :=
  match m.kind with
  | .counter => [(m.camelName, t.count)]
  | .event _ => [(m.camelName ++ "Count", t.count), (m.camelName, t.value)]

/-- The attributes of all metrics in order of their keys. Of metrics whose keys agree the last counts. -/
def attributes (k : TotalKeeper) (r : Registry) : List (String × UInt64) :=
  ((r.metrics.zip k.totals).flatMap fun (m, t) => attributesOf m t).foldl
    (fun table (key, value) => insert key value table) []

end TotalKeeper

/-! ## Any observer -/

/-- How an observer of the host answers. -/
structure HostObserver where
  /-- It fails after each call. -/
  fails : Bool
  /-- It wants to know of computers that are gone. -/
  hearsUnloads : Bool
  deriving DecidableEq

/-- An observer. -/
inductive Observer where
  /-- It keeps a record for each computer. -/
  | records (keeper : RecordKeeper)
  /-- It keeps sums. -/
  | totals (keeper : TotalKeeper)
  /-- It belongs to the host. -/
  | host (observer : HostObserver)

namespace Observer

/-- An observer after it was told something. -/
def hear (o : Observer) (computer : ComputerId) (call : Call) : Observer :=
  match o with
  | records k => .records (k.hear computer call)
  | totals k => .totals (k.hear call)
  | host h => .host h

/-- Whether an observer does anything when told something. -/
def hears (o : Observer) (call : Call) : Bool :=
  match o with
  | host h => h.hearsUnloads || call != .unloaded
  | _ => true

/-- Whether an observer fails when told something. -/
def failsOn (o : Observer) (call : Call) : Bool :=
  match o with
  | host h => h.fails && o.hears call
  | _ => false

/-- Whether an observer was started. -/
def tracking : Observer → Bool
  | records k => k.tracking
  | totals k => k.tracking
  | host _ => false

/-- An observer that is started or stopped. Records are cleared by both, sums by neither. -/
def setTracking (tracking : Bool) : Observer → Observer
  | records k => .records { k.clear with tracking }
  | totals k => .totals { k with tracking }
  | host h => .host h

end Observer

end FairShare.Metrics

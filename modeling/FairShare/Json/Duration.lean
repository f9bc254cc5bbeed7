import FairShare.Duration
import FairShare.Json.Basic

/-!
# Durations in JSON

A duration is written as its whole seconds and the nanoseconds past them, under the names `secs` and
`nanos`, both of which are needed and the only ones allowed. Reading carries a second's worth of
nanoseconds or more over into the seconds.
-/

namespace FairShare.Duration

/-- The names of the two fields. -/
def fieldNames : List String := ["secs", "nanos"]

/-- A duration as a document. -/
def toJson (d : Duration) : Json :=
  .object [Json.field "secs" (.natural d.seconds.toNat), Json.field "nanos" (.natural d.subsecNanos.toNat)]

/-- Reads a duration. -/
def ofJson? (j : Json) : Option Duration := do
  match ← j.fields? fieldNames .refused with
  | [some secs, some nanos] => ofParts? (← secs.word64?) (← nanos.word32?)
  | _ => none

end FairShare.Duration

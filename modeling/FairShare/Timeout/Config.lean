import FairShare.Json.Duration
import FairShare.Text.Record

/-!
# Timeout configuration

How long a slice may run before it is asked to stop, and the step by which the means of stopping it are
raised after that.
-/

namespace FairShare

/-- The settings of a timeout. -/
@[ext] structure TimeoutConfig where
  /-- The budget of a slice, after which it is soft aborted. -/
  timeout : Duration := .ofMillis 7000
  /-- The time between two steps of escalation. -/
  abortTimeout : Duration := .ofMillis 1500
  deriving DecidableEq

instance : Inhabited TimeoutConfig := ⟨{}⟩

namespace TimeoutConfig

/-- What a timeout configuration can lack. -/
inductive Fault where
  /-- The budget is empty. -/
  | zeroTimeout
  /-- The step is empty. -/
  | zeroAbortTimeout
  deriving DecidableEq

/-- The explanation of a fault. -/
def Fault.message : Fault → String
  | zeroTimeout => "invalid timeout configuration: timeout must be non-zero"
  | zeroAbortTimeout => "invalid timeout configuration: abort_timeout must be non-zero"

/-- Finds the first fault of a configuration. -/
def validate (c : TimeoutConfig) : Except Fault Unit :=
  if c.timeout.isZero then .error .zeroTimeout
  else if c.abortTimeout.isZero then .error .zeroAbortTimeout
  else .ok ()

/-- The time after which a slice is hard aborted, if it is not too long for a duration. -/
def hardAbortAfter? (c : TimeoutConfig) : Option Duration := c.timeout.add? c.abortTimeout

/-- The text of a configuration. -/
def text (c : TimeoutConfig) : String :=
  Text.record "TimeoutConfig"
    [("timeout", c.timeout.text), ("abort_timeout", c.abortTimeout.text)] false

/-- The names of the fields. -/
def fieldNames : List String := ["timeout", "abort_timeout"]

/-- A configuration as a document. -/
def toJson (c : TimeoutConfig) : Json :=
  .object [Json.field "timeout" c.timeout.toJson, Json.field "abort_timeout" c.abortTimeout.toJson]

/-- Reads a configuration; fields that are not written have their defaults. -/
def ofJson? (j : Json) : Option TimeoutConfig := do
  match ← j.fields? fieldNames .ignored with
  | [timeout, abortTimeout] =>
    let d : TimeoutConfig := {}
    return ⟨← Json.fieldOr d.timeout Duration.ofJson? timeout,
      ← Json.fieldOr d.abortTimeout Duration.ofJson? abortTimeout⟩
  | _ => none

end TimeoutConfig

end FairShare

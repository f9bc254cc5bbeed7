import FairShare.Timeout.Config

/-!
# Scheduler configuration

The settings that the host gives a scheduler once. Each has a default, so that a document need only name
those that differ. `validate` finds the first fault in the order in which the fields are listed.
-/

namespace FairShare

/-- The settings of a scheduler. -/
@[ext] structure SchedulerConfig where
  /-- How many worker threads computers run on. -/
  workerCount : UInt64 := 1
  /-- The time that all active computers share out before one of them is paused. -/
  basePeriod : Duration := .ofMillis 50
  /-- The least share of a computer. -/
  minPeriod : Duration := .ofMillis 5
  /-- How often the watchdog looks while nobody waits. -/
  monitorInterval : Duration := .ofMillis 100
  /-- The least time between two reports on one worker. -/
  reportDebounce : Duration := .ofMillis 1000
  /-- The settings of the timeouts. -/
  timeouts : TimeoutConfig := {}
  deriving DecidableEq

instance : Inhabited SchedulerConfig := ⟨{}⟩

namespace SchedulerConfig

/-- A setting that must not be empty. -/
inductive Period where
  /-- The time that is shared out. -/
  | base
  /-- The least share. -/
  | min
  /-- The interval of the watchdog. -/
  | monitor
  deriving DecidableEq

/-- The name of a setting. -/
def Period.name : Period → String
  | base => "base_period"
  | min => "min_period"
  | monitor => "monitor_interval"

/-- What is wrong with a configuration. -/
inductive Fault where
  /-- There are no workers. -/
  | noWorkers
  /-- A period is empty. -/
  | zeroPeriod (period : Period)
  /-- The least share exceeds what is shared out. -/
  | minPeriodTooLarge (minPeriod basePeriod : Duration)
  /-- The timeouts have a fault. -/
  | timeout (fault : TimeoutConfig.Fault)
  deriving DecidableEq

/-- The explanation of a fault. -/
def Fault.message : Fault → String
  | noWorkers => "worker_count must be at least 1"
  | zeroPeriod period => s!"{period.name} must be non-zero"
  | minPeriodTooLarge minPeriod basePeriod =>
    s!"min_period ({minPeriod.text}) exceeds base_period ({basePeriod.text})"
  | timeout fault => fault.message

/-- The text of a fault. -/
def Fault.text : Fault → String
  | noWorkers => "NoWorkers"
  | zeroPeriod period => Text.variant "ZeroPeriod" ("\"" ++ period.name ++ "\"")
  | minPeriodTooLarge minPeriod basePeriod =>
    Text.record "MinPeriodTooLarge"
      [("min_period", minPeriod.text), ("base_period", basePeriod.text)] false
  | timeout .zeroTimeout => Text.variant "Timeout" (Text.variant "InvalidConfig" "\"timeout must be non-zero\"")
  | timeout .zeroAbortTimeout =>
    Text.variant "Timeout" (Text.variant "InvalidConfig" "\"abort_timeout must be non-zero\"")

/-- Finds the first fault of a configuration. -/
def validate (c : SchedulerConfig) : Except Fault Unit :=
  if c.workerCount = 0 then .error .noWorkers
  else if c.basePeriod.isZero then .error (.zeroPeriod .base)
  else if c.minPeriod.isZero then .error (.zeroPeriod .min)
  else if c.monitorInterval.isZero then .error (.zeroPeriod .monitor)
  else if c.basePeriod.nanos < c.minPeriod.nanos then
    .error (.minPeriodTooLarge c.minPeriod c.basePeriod)
  else match c.timeouts.validate with
    | .error fault => .error (.timeout fault)
    | .ok () => .ok ()

/-- The default configuration with a number of workers. -/
def withWorkers (n : UInt64) : SchedulerConfig := { workerCount := n }

/-- The text of a configuration. -/
def text (c : SchedulerConfig) : String :=
  Text.record "SchedulerConfig"
    [("worker_count", toString c.workerCount.toNat), ("base_period", c.basePeriod.text),
      ("min_period", c.minPeriod.text), ("monitor_interval", c.monitorInterval.text),
      ("report_debounce", c.reportDebounce.text), ("timeouts", c.timeouts.text)] false

/-- The names of the fields. -/
def fieldNames : List String :=
  ["worker_count", "base_period", "min_period", "monitor_interval", "report_debounce", "timeouts"]

/-- A configuration as a document. -/
def toJson (c : SchedulerConfig) : Json :=
  .object [Json.field "worker_count" (.natural c.workerCount.toNat),
    Json.field "base_period" c.basePeriod.toJson, Json.field "min_period" c.minPeriod.toJson,
    Json.field "monitor_interval" c.monitorInterval.toJson,
    Json.field "report_debounce" c.reportDebounce.toJson, Json.field "timeouts" c.timeouts.toJson]

/-- Reads a configuration; fields that are not written have their defaults. -/
def ofJson? (j : Json) : Option SchedulerConfig := do
  match ← j.fields? fieldNames .ignored with
  | [workerCount, basePeriod, minPeriod, monitorInterval, reportDebounce, timeouts] =>
    let d : SchedulerConfig := {}
    return ⟨← Json.fieldOr d.workerCount Json.word64? workerCount,
      ← Json.fieldOr d.basePeriod Duration.ofJson? basePeriod,
      ← Json.fieldOr d.minPeriod Duration.ofJson? minPeriod,
      ← Json.fieldOr d.monitorInterval Duration.ofJson? monitorInterval,
      ← Json.fieldOr d.reportDebounce Duration.ofJson? reportDebounce,
      ← Json.fieldOr d.timeouts TimeoutConfig.ofJson? timeouts⟩
  | _ => none

end SchedulerConfig

end FairShare

import FairShare.Metrics.Registry

/-!
# The standard metrics

The metrics that the scheduler and a typical host record. They are registered in the order of the fields
of `Standard`; a name that is taken ends the registration, and those before it stay.
-/

namespace FairShare.Metrics

/-- A standard metric. -/
inductive StandardMetric where
  /-- Time spent on one slice of a computer. -/
  | computerTasks
  /-- Time spent on work that a computer queued with the host. -/
  | serverTasks
  /-- Bytes allocated during a slice. -/
  | allocation
  /-- Operations on peripherals. -/
  | peripheralOps
  /-- Operations on files. -/
  | fsOps
  /-- Coroutines begun. -/
  | coroutinesCreated
  /-- Coroutines ended. -/
  | coroutinesDisposed
  deriving DecidableEq

namespace StandardMetric

/-- The name of a standard metric. -/
def name : StandardMetric → String
  | computerTasks => "computer_tasks"
  | serverTasks => "server_tasks"
  | allocation => "allocation"
  | peripheralOps => "peripheral_ops"
  | fsOps => "fs_ops"
  | coroutinesCreated => "coroutines_created"
  | coroutinesDisposed => "coroutines_disposed"

/-- The standard metrics in the order of registration. -/
def all : List StandardMetric :=
  [computerTasks, serverTasks, allocation, peripheralOps, fsOps, coroutinesCreated, coroutinesDisposed]

/-- The kind of a standard metric. -/
def kind : StandardMetric → MetricKind
  | computerTasks | serverTasks => .event .time
  | allocation => .event .bytes
  | _ => .counter

end StandardMetric

/-- The standard metrics of a registry. -/
@[ext] structure Standard where
  /-- Time spent on one slice of a computer. -/
  computerTasks : Metric
  /-- Time spent on work that a computer queued with the host. -/
  serverTasks : Metric
  /-- Bytes allocated during a slice. -/
  allocation : Metric
  /-- Operations on peripherals. -/
  peripheralOps : Metric
  /-- Operations on files. -/
  fsOps : Metric
  /-- Coroutines begun. -/
  coroutinesCreated : Metric
  /-- Coroutines ended. -/
  coroutinesDisposed : Metric
  deriving DecidableEq

/-- Registration on a registry that keeps what was registered before an error. -/
abbrev Registration := ExceptT MetricsError (StateM Registry)

namespace StandardMetric

/-- Registers a standard metric. -/
def register (s : StandardMetric) : Registration Metric := fun r =>
  match r.register s.name s.kind with
  | .ok (m, r') => (.ok m, r')
  | .error e => (.error e, r)

/-- Finds a standard metric in a registry. -/
def lookup (s : StandardMetric) (r : Registry) : Except MetricsError Metric :=
  if s.kind.isCounter then r.counter s.name else r.event s.name

end StandardMetric

/-- Registers the standard metrics. -/
def Standard.register : Registration Standard := do
  return ⟨← StandardMetric.computerTasks.register, ← StandardMetric.serverTasks.register,
    ← StandardMetric.allocation.register, ← StandardMetric.peripheralOps.register,
    ← StandardMetric.fsOps.register, ← StandardMetric.coroutinesCreated.register,
    ← StandardMetric.coroutinesDisposed.register⟩

/-- Finds the standard metrics in a registry. -/
def Standard.lookup (r : Registry) : Except MetricsError Standard := do
  return ⟨← StandardMetric.computerTasks.lookup r, ← StandardMetric.serverTasks.lookup r,
    ← StandardMetric.allocation.lookup r, ← StandardMetric.peripheralOps.lookup r,
    ← StandardMetric.fsOps.lookup r, ← StandardMetric.coroutinesCreated.lookup r,
    ← StandardMetric.coroutinesDisposed.lookup r⟩

/-- The metrics in the order of the fields. -/
def Standard.toList (s : Standard) : List Metric :=
  [s.computerTasks, s.serverTasks, s.allocation, s.peripheralOps, s.fsOps, s.coroutinesCreated,
    s.coroutinesDisposed]

namespace Registry

/-- Registers the standard metrics: what comes of it, and the registry, which keeps those before an
error. -/
def registerStandard (r : Registry) : Except MetricsError Standard × Registry :=
  Standard.register.run.run r

/-- The registry of the standard metrics alone. -/
def standard : Registry := StandardMetric.all.foldl (fun r s => (r.push s.name s.kind).2) {}

end Registry

/-! ## Runs of a registry -/

/-- A call that registers metrics. -/
inductive RegistryCall where
  /-- One metric is registered. -/
  | register (name : String) (kind : MetricKind)
  /-- The standard metrics are registered. -/
  | registerStandard
  deriving DecidableEq

namespace Registry

/-- What a call leaves. -/
def after (r : Registry) : RegistryCall → Registry
  | .register name kind => match r.register name kind with
    | .ok (_, r') => r'
    | .error _ => r
  | .registerStandard => r.registerStandard.2

/-- What a sequence of calls leaves. -/
def run (r : Registry) (calls : List RegistryCall) : Registry := calls.foldl after r

end Registry

end FairShare.Metrics

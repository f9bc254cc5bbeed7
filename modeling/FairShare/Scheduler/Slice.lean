import FairShare.Scheduler.Pool

/-!
# The host's side of a slice

Calls into the host and the metrics, and what is made of the way in which a slice ended. A failing callback
is reported and changes nothing else. A failing observer is another matter: it tears down the thread that
called it, which `observerFails` foretells.
-/

namespace FairShare.Scheduler.Pool

variable {n : Nat}

/-- Passes an observation of an executor on. -/
def observe (s : Pool n) (e : Fin n) (o : Metrics.Observation) : Pool n :=
  let host := (s.executor e).host
  let s := s.emit (.observed e o)
  match host.sink with
  | .context =>
    let (context, notes) := s.context.observe host.computer o
    notes.foldl (fun s note => s.emit (.metrics note)) { s with context }
  | _ => s

/-- Whether an observation of an executor fails. -/
def observerFails (s : Pool n) (e : Fin n) : Bool :=
  match (s.executor e).host.sink with
  | .host fails => fails
  | _ => false

/-- Tells the metrics context that an executor is unloaded. -/
def announce (s : Pool n) (e : Fin n) : Pool n :=
  let (context, notes) := s.context.computerUnloaded (s.executor e).host.computer
  notes.foldl (fun s note => s.emit (.metrics note)) ({ s with context }.emit (.announced e))

/-- Calls a part of the host, and reports its failure. -/
def callHost (s : Pool n) (e : Fin n) (callback : Callback) : Pool n :=
  let host := (s.executor e).host
  let s := s.emit (.called e callback)
  match host.failure callback with
  | some reason => s.report (.callbackFailed host.computer callback reason)
  | none => s

/-- Compares the clock of an executor with its share and its budget. -/
def refresh (s : Pool n) (e : Fin n) : Pool n :=
  s.modifyTimeout e (·.refresh s.share s.clock)

/-- Keeps the error that a slice ended with. -/
def recordError (s : Pool n) (e : Fin n) (reason : String) : Pool n :=
  s.modify e fun x => { x with lastError := some reason }

/-- Deals with the end of an executor's work. -/
def handle (s : Pool n) (e : Fin n) (result : WorkResult) : Pool n × List (Instr n) :=
  let computer := (s.executor e).host.computer
  let fail (reason : String) : Pool n × List (Instr n) :=
    ((s.report (.failed computer reason)).recordError e reason, [.callHost e .abortWithError])
  match result with
  | .ok => (s, [])
  | .error error =>
    if error.isFatal then fail error.message
    else ((s.report (.stopped computer error.message)).recordError e error.message, [])
  | .crashed reason => fail (crashReason reason)

/-- The observations of a slice that ended, and the report of an impossible one. -/
def account (s : Pool n) (e : Fin n) (elapsed : Nat) (slice : SliceRecord) : List (Instr n) :=
  let tasks := .account e (.event s.context.standard.computerTasks (toWord elapsed))
  match slice with
  | .never => []
  | .abandoned => [tasks]
  | .ran before after =>
    if before < after then
      [tasks, .account e (.event s.context.standard.allocation (after - before))]
    else if after < before then [tasks, .warnAllocation e before after]
    else [tasks]

end FairShare.Scheduler.Pool

import FairShare.Scheduler.Section
import FairShare.Scheduler.Watchdog

/-!
# Steps of a thread

`exec` carries out one instruction for a thread and tells which instructions come next, before those that
the thread already had; a thread that is torn down by a failing observer has none. `step` does so for the
next instruction of a thread, unless that has to wait.
-/

namespace FairShare.Scheduler.Pool

variable {n : Nat}

/-- Carries out a call for a thread. -/
def call (s : Pool n) (t : ThreadId) : Call n → Pool n × List (Instr n)
  | .submit e =>
    let stage := (s.executor e).stage
    let s := s.setStage e stage.submitted
    if stage = .idle then (s, [.enqueue e])
    else ((s.emit (.submitted e (.ok ()))).setAnswer t (.result (.ok ())), [])
  | .unload e =>
    let stage := (s.executor e).stage
    (s.setStage e .done,
      match stage with
      | .queued => [.dequeue e, .finishUnload e]
      | .idle => [.finishUnload e]
      | _ => [])
  | .refresh e => (s.refresh e, [])
  | .arm e budget => (s.modifyTimeout e (·.armClock budget s.clock), [.call (.refresh e)])
  | .hardAbort e =>
    let newly := !(s.executor e).timeout.flags.hardAborted
    ((s.modifyTimeout e (·.hardAbort)).setAnswer t (.raised newly), [])
  | .startTimer e => (s.modifyTimeout e (·.startClock s.clock), [.call (.refresh e)])
  | .resetTimer e => (s.modifyTimeout e (·.reset), [])
  | .stop timeout => ({ s with phase := s.phase.later .stopping }, [.collect timeout])

/-- What a worker does with what it found. -/
def afterTake (w : WorkerId) (t : ThreadId) : Pool n × Found n → Pool n × List (Instr n)
  | (s, .work e) => (s, [.openSlice w e])
  | (s, .over) => (s, [.retire w])
  | (s, .nothing) => ({ s with workWaiters := s.workWaiters ++ [t] }, [.awaitWork w])

/-- Carries out an instruction for a thread: what comes next, or `none` if the thread is torn down. -/
def exec (s : Pool n) (t : ThreadId) : Instr n → Pool n × Option (List (Instr n))
  | .call c => (s.call t c).map id some
  | .enqueue e =>
    if s.reachable then
      match s.enqueue e with
      | .ok s => ((s.emit (.submitted e (.ok ()))).setAnswer t (.result (.ok ())), some [])
      | .error _ => (s, some [.withdraw e])
    else (s, some [.withdraw e])
  | .withdraw e =>
    let s := if (s.executor e).stage = .queued then s.setStage e .idle else s
    ((s.emit (.submitted e (.error .notRunning))).setAnswer t (.result (.error .notRunning)), some [])
  | .dequeue e => (s.dequeue e, some [])
  | .finishUnload e =>
    let x := s.executor e
    if x.unloaded then (s, some [])
    else ((s.modify e fun x => { x with unloaded := true }).report (.unloading x.host.computer),
      some [.callHost e .unload, .announce e])
  | .announce e => (s.announce e, some [])
  | .callHost e callback => (s.callHost e callback, some [])
  | .startWorker w => (s.modifyWorker w fun worker => { worker with started := true }, some [])
  | .nextSlice w =>
    match s.workers[w]? with
    | some worker => (s, some (if worker.live then [.seekWork w, .nextSlice w] else [.retire w]))
    | none => (s, some [])
  | .seekWork w => (afterTake w t ({ s with idle := s.idle + 1 }.take w)).map id some
  | .awaitWork w => (afterTake w t (s.take w)).map id some
  | .openSlice w e =>
    (s, some (if s.phase.isStopping then [.call (.unload e), .resetTimer e .never]
      else [.clearInterrupt w, .call (.startTimer e), .noteAllocated w e]))
  | .clearInterrupt w => (s.modifyWorker w fun worker => { worker with interrupted := false }, some [])
  | .noteAllocated w e =>
    match s.workers[w]? with
    | some worker => (s, some [.publish w e worker.allocated])
    | none => (s, some [])
  | .publish w e allocated =>
    (s.modifyWorker w fun worker => { worker with current := some e },
      some [.callWork w e, .closeSlice w e allocated])
  | .callWork w e => (s.emit (.workBegan e w), some [.work w e])
  | .work w e => (s, some [.work w e])
  | .sleep w deadline =>
    if s.interrupted w then (s.setAnswer t (.slept false), some []) else (s, some [.doze w deadline])
  | .doze w deadline =>
    if deadline ≤ s.clock then (s.setAnswer t (.slept true), some []) else (s, some [.sleep w deadline])
  | .observe e o => (s.observe e o, some [])
  | .handle e result => (s.handle e result).map id some
  | .closeSlice w e before =>
    match s.workers[w]? with
    | some worker =>
      (s.modifyWorker w fun worker => { worker with current := none },
        some (if worker.current.isSome then [.resetTimer e (.ran before worker.allocated)] else []))
    | none => (s, some [])
  | .resetTimer e slice =>
    let elapsed := (s.executor e).timeout.executionTime s.clock
    ((s.modifyTimeout e (·.reset)).emit (.timerReset e elapsed),
      some (s.account e elapsed slice ++ [.settle e]))
  | .account e o => (s.observe e o, if s.observerFails e then none else some [])
  | .warnAllocation e before after =>
    (s.report (.negativeAllocation (s.executor e).host.computer before after), some [])
  | .settle e =>
    match s.settle e with
    | (s, .done) => (s, some [.finishUnload e])
    | (s, _) => (s, some [])
  | .retire w =>
    match s.workers[w]? with
    | some worker =>
      if worker.live then
        ((s.modifyWorker w fun worker => { worker with live := false }).emit (.retired w),
          some [.takeAbandoned w, .decideRespawn w])
      else (s, some [])
    | none => (s, some [])
  | .takeAbandoned w =>
    (s.modifyWorker w fun worker => { worker with current := none },
      some (match s.current? w with
        | some e => [.resetTimer e .abandoned]
        | none => []))
  | .decideRespawn w =>
    (s, some [.vacate w (match s.phase with
      | .running => true
      | .stopping => !s.queue.isEmpty
      | .closed => false)])
  | .vacate w respawn => (s.vacate w respawn, some [])
  | .startWatchdog => (s, some [])
  | .watch => (s, some (if s.phase = .closed then [] else [.beginWatch]))
  | .beginWatch =>
    let wait := if s.isBusy then s.scaledPeriod else s.config.monitorInterval
    ({ s with watchWaiters := s.watchWaiters ++ [t] },
      some [.watching (s.clock + wait.nanos), .inspect, .watch])
  | .watching _ => ({ s with watchWaiters := s.watchWaiters.filter (· != t) }, some [])
  | .inspect => (s, some (s.slots.filterMap fun slot => slot.map .checkWorker))
  | .checkWorker w =>
    (s, some (match s.current? w with
      | some e => [.call (.refresh e), .measure w e]
      | none => []))
  | .measure w e =>
    let overrun := (s.executor e).timeout.overrun s.clock
    (s, some (if s.config.timeouts.abortTimeout.nanos ≤ overrun.nanos then [.raise w e overrun] else []))
  | .raise w e overrun => (s.raise w e overrun).map id some
  | .press w e overrun => (s.press w e overrun).map id some
  | .report w e overrun => (s.beginReport w e overrun).map id some
  | .writeReport e overrun thread => (s.writeReport e overrun thread, some [])
  | .collect timeout =>
    let current := s.slots.filterMap fun slot => slot.bind s.current?
    (s, some (current.map (.call ∘ .hardAbort) ++ [.wakeWorkers, .beginStopWait timeout]))
  | .wakeWorkers => ({ s with workWaiters := [] }, some [])
  | .beginStopWait timeout => (s, some [.stopWait (s.clock + timeout.nanos) timeout])
  | .stopWait deadline timeout =>
    if s.workerCount = 0 then (s, some [.close])
    else if deadline ≤ s.clock then
      ((s.report (.stopTimedOut s.workerCount timeout)).setAnswer t
        (.result (.error (.shutdownTimeout s.workerCount))), some [])
    else ({ s with stopWaiters := s.stopWaiters.filter (· != t) ++ [t] }, some [.stopWait deadline timeout])
  | .close => ({ s with phase := s.phase.later .closed }, some [.wakeWatchdog])
  | .wakeWatchdog => ({ s with watchWaiters := [] }.setAnswer t (.result (.ok ())), some [])

/-- Whether a thread has to wait before it carries out an instruction. -/
def mustWait (s : Pool n) (t : ThreadId) : Instr n → Bool
  | .awaitWork _ => s.workWaiters.contains t
  | .watching deadline => s.watchWaiters.contains t && s.clock < deadline
  | .stopWait deadline _ => s.stopWaiters.contains t && s.clock < deadline
  | .work _ _ => true
  | _ => false

/-- A thread carries out its next instruction, if it has one and need not wait. -/
def step (s : Pool n) (t : ThreadId) : Pool n :=
  match s.code t with
  | [] => s
  | i :: rest =>
    if s.mustWait t i then s
    else
      let (s', next) := (s.setCode t rest).exec t i
      s'.setCode t (match next with
        | some front => front ++ rest
        | none => [])

end FairShare.Scheduler.Pool

import FairShare.Proofs.Aftermath

/-!
# What nothing depends on

Nothing that a scheduler does depends on what happened before or on the error that an executor ended with, and what a
thread does first keeps nobody from going on. A guise gives a pool another past, another last error of one executor and
something that one thread does first. Every operation does to a pool in a guise what it does to the pool itself, so both go
the same way.
-/

namespace FairShare.Scheduler

variable {n : Nat}

/-- What tells a pool from another one that goes the same way. -/
structure Guise (n : Nat) where
  /-- What happened before. -/
  past : List (Event n)
  /-- The executor. -/
  executor : Fin n
  /-- The last error of the executor. -/
  error : Option String
  /-- The thread. -/
  thread : ThreadId
  /-- What the thread does first. -/
  front : List (Instr n)

/-- A thread that does something first. -/
def Guise.dress (u : Guise n) (thread : Thread n) : Thread n := { thread with code := u.front ++ thread.code }

/-- A guise after an instruction: what an executor ends with shows in it if it is the one that the guise is about. -/
def Guise.after (u : Guise n) : Instr n → Guise n
  | .handle e r => if e = u.executor then { u with error := r.message?.or u.error } else u
  | _ => u

namespace Pool

/-- A pool in a guise. -/
def guise (s : Pool n) (u : Guise n) : Pool n :=
  { s with
    executors := s.executors.set u.executor.val ((s.executor u.executor).blame u.error) u.executor.isLt
    threads := s.threads.modify u.thread u.dress
    history := u.past.toArray ++ s.history }

variable (s : Pool n) (u : Guise n)

/-! ## What a guise shows -/

@[simp] theorem guise_config : (s.guise u).config = s.config := rfl
@[simp] theorem guise_context : (s.guise u).context = s.context := rfl
@[simp] theorem guise_log : (s.guise u).log = s.log := rfl
@[simp] theorem guise_clock : (s.guise u).clock = s.clock := rfl
@[simp] theorem guise_phase : (s.guise u).phase = s.phase := rfl
@[simp] theorem guise_held : (s.guise u).held = s.held := rfl
@[simp] theorem guise_queue : (s.guise u).queue = s.queue := rfl
@[simp] theorem guise_running : (s.guise u).running = s.running := rfl
@[simp] theorem guise_minimum : (s.guise u).minimum = s.minimum := rfl
@[simp] theorem guise_idle : (s.guise u).idle = s.idle := rfl
@[simp] theorem guise_workerCount : (s.guise u).workerCount = s.workerCount := rfl
@[simp] theorem guise_workers : (s.guise u).workers = s.workers := rfl
@[simp] theorem guise_interrupted (w : WorkerId) : (s.guise u).interrupted w = s.interrupted w := rfl
@[simp] theorem guise_slots : (s.guise u).slots = s.slots := rfl
@[simp] theorem guise_watchdog : (s.guise u).watchdog = s.watchdog := rfl
@[simp] theorem guise_workWaiters : (s.guise u).workWaiters = s.workWaiters := rfl
@[simp] theorem guise_watchWaiters : (s.guise u).watchWaiters = s.watchWaiters := rfl
@[simp] theorem guise_stopWaiters : (s.guise u).stopWaiters = s.stopWaiters := rfl
@[simp] theorem guise_current (w : WorkerId) : (s.guise u).current? w = s.current? w := rfl

theorem guise_executor (e : Fin n) :
    (s.guise u).executor e = if e = u.executor then (s.executor e).blame u.error else s.executor e := by
  refine (executor_modify_eq s u.executor e (·.blame u.error)).trans ?_
  split <;> simp_all

/-- Whatever one asks of an executor but its last error is the same in a guise. -/
theorem guise_executor_eq {α : Type} {f : Executor → α} (hf : ∀ x error, f (x.blame error) = f x) (e : Fin n) :
    f ((s.guise u).executor e) = f (s.executor e) := by
  rw [guise_executor]
  split
  · exact hf ..
  · rfl

@[simp] theorem guise_stage (e : Fin n) : ((s.guise u).executor e).stage = (s.executor e).stage :=
  guise_executor_eq s u (fun _ _ => rfl) e
@[simp] theorem guise_host (e : Fin n) : ((s.guise u).executor e).host = (s.executor e).host :=
  guise_executor_eq s u (fun _ _ => rfl) e
@[simp] theorem guise_timeout (e : Fin n) : ((s.guise u).executor e).timeout = (s.executor e).timeout :=
  guise_executor_eq s u (fun _ _ => rfl) e
@[simp] theorem guise_unloaded (e : Fin n) : ((s.guise u).executor e).unloaded = (s.executor e).unloaded :=
  guise_executor_eq s u (fun _ _ => rfl) e
@[simp] theorem guise_runtime (e : Fin n) : ((s.guise u).executor e).runtime = (s.executor e).runtime :=
  guise_executor_eq s u (fun _ _ => rfl) e
@[simp] theorem guise_chargedAt (e : Fin n) : ((s.guise u).executor e).chargedAt = (s.executor e).chargedAt :=
  guise_executor_eq s u (fun _ _ => rfl) e

/-! ## Events, executors and workers -/

@[simp] theorem guise_emit (v : Event n) : (s.guise u).emit v = (s.emit v).guise u := by
  simp [guise, emit, executor]

@[simp] theorem guise_report (v : Notice) : (s.guise u).report v = (s.report v).guise u := by
  simp [report]

/-- A change of an executor that has nothing to do with the last error, if the guise is about that executor. -/
theorem guise_modify_of {e : Fin n} {f : Executor → Executor}
    (hf : e = u.executor → ∀ x error, f (x.blame error) = (f x).blame error) :
    (s.guise u).modify e f = (s.modify e f).guise u := by
  have hx : ((s.guise u).modify e f).executors = ((s.modify e f).guise u).executors := by
    apply Vector.ext fun i hi => ?_
    show ((s.guise u).modify e f).executor ⟨i, hi⟩ = ((s.modify e f).guise u).executor ⟨i, hi⟩
    rw [executor_modify_eq, guise_executor, guise_executor, guise_executor, executor_modify_eq]
    split <;> split <;> simp_all
  exact congrArg (fun executors => ({ s.guise u with executors } : Pool n)) hx

theorem guise_modify {e : Fin n} {f : Executor → Executor}
    (hf : ∀ x error, f (x.blame error) = (f x).blame error) :
    (s.guise u).modify e f = (s.modify e f).guise u :=
  guise_modify_of s u fun _ => hf

@[simp] theorem guise_modifyTimeout (e : Fin n) (f : TimeoutState → TimeoutState) :
    (s.guise u).modifyTimeout e f = (s.modifyTimeout e f).guise u := guise_modify s u fun _ _ => rfl
@[simp] theorem guise_setStage (e : Fin n) (stage : Stage) :
    (s.guise u).setStage e stage = (s.setStage e stage).guise u := guise_modify s u fun _ _ => rfl
@[simp] theorem guise_modifyWorker (w : WorkerId) (f : Worker n → Worker n) :
    (s.guise u).modifyWorker w f = (s.modifyWorker w f).guise u := rfl

/-! ## Threads -/

/-- The thread of a guise has something to do anyway, if the guise has it do something first. -/
def Wears (s : Pool n) (u : Guise n) : Prop := u.front = [] ∨ s.code u.thread ≠ []

variable {s u}

theorem code_eq_getD (s : Pool n) (t : ThreadId) : s.code t = (s.threads[t]?.map (·.code)).getD [] := by
  unfold code
  cases s.threads[t]? <;> rfl

theorem code_eq_nil_of_le {t : ThreadId} (h : s.threads.length ≤ t) : s.code t = [] := by
  rw [code_eq_getD, List.getElem?_eq_none h]
  rfl

theorem Wears.lt (h : s.Wears u) (hf : u.front ≠ []) : u.thread < s.threads.length := by
  by_contra hlt
  exact (h.resolve_left hf) (code_eq_nil_of_le (Nat.le_of_not_lt hlt))

/-- What the threads are in a guise is all that they have to do with it. -/
theorem guise_setThreads {threads threads' : List (Thread n)} (h : threads = threads'.modify u.thread u.dress) :
    ({ s.guise u with threads } : Pool n) = ({ s with threads := threads' } : Pool n).guise u :=
  congrArg (fun threads => ({ s.guise u with threads } : Pool n)) h

theorem dress_eq_id (h : u.front = []) : u.dress = id := by
  funext thread
  simp [Guise.dress, h]

theorem guise_threads (h : u.front = []) : (s.guise u).threads = s.threads := by
  show s.threads.modify _ _ = _
  rw [dress_eq_id h, List.modify_id]

theorem Wears.code (h : s.Wears u) (t : ThreadId) :
    (s.guise u).code t = if t = u.thread then u.front ++ s.code t else s.code t := by
  rw [code_eq_getD s, code_eq_getD (s.guise u)]
  rcases h with h | h
  · rw [guise_threads h, h]
    simp
  · rw [code_eq_getD] at h
    have hthreads : (s.guise u).threads[t]? = (s.threads.modify u.thread u.dress)[t]? := rfl
    rw [hthreads]
    by_cases ht : t = u.thread
    · subst ht
      rw [List.getElem?_modify_eq, if_pos rfl]
      cases hx : s.threads[u.thread]? with
      | none => rw [hx] at h; exact absurd rfl h
      | some thread => rfl
    · rw [List.getElem?_modify_ne _ _ (Ne.symm ht), if_neg ht]

theorem isEmpty_append {α : Type} {front rest : List α} (h : front = [] ∨ rest ≠ []) :
    (front ++ rest).isEmpty = rest.isEmpty := by
  rcases h with rfl | h
  · rfl
  · rw [List.isEmpty_eq_false_iff.2 h, List.isEmpty_eq_false_iff]
    exact List.append_ne_nil_of_right_ne_nil _ h

theorem Wears.isEmpty (h : s.Wears u) (t : ThreadId) : ((s.guise u).code t).isEmpty = (s.code t).isEmpty := by
  rw [h.code]
  split
  · subst_vars
    exact isEmpty_append h
  · rfl

theorem Wears.watchdogAlive (h : s.Wears u) : (s.guise u).watchdogAlive = s.watchdogAlive := by
  unfold Pool.watchdogAlive
  rw [guise_watchdog]
  cases s.watchdog with
  | none => rfl
  | some t => simp only [h.isEmpty]

theorem any_modify {α : Type} {p : α → Bool} {f : α → α} {l : List α} {i : Nat}
    (h : ∀ x, l[i]? = some x → p (f x) = p x) : (l.modify i f).any p = l.any p := by
  induction l generalizing i with
  | nil => simp
  | cons x l ih =>
    cases i with
    | zero => simp [h x rfl]
    | succ i => simp [ih h]

theorem Wears.reachable (h : s.Wears u) : (s.guise u).reachable = s.reachable := by
  have hany : (s.threads.modify u.thread u.dress).any (fun thread => thread.holds && !thread.code.isEmpty) =
      s.threads.any fun thread => thread.holds && !thread.code.isEmpty := by
    refine any_modify fun thread ht => ?_
    have hcode : s.code u.thread = thread.code := by unfold Pool.code; rw [ht]
    show (thread.holds && !(u.front ++ thread.code).isEmpty) = _
    rw [isEmpty_append (hcode ▸ h)]
  exact congrArg (s.held || ·) hany

theorem Wears.share (h : s.Wears u) : (s.guise u).share = s.share := by
  unfold Pool.share
  rw [h.reachable]
  rfl

theorem Wears.append (h : s.Wears u) (thread : Thread n) :
    ({ s.guise u with threads := (s.guise u).threads ++ [thread] } : Pool n) =
      ({ s with threads := s.threads ++ [thread] } : Pool n).guise u := by
  refine guise_setThreads ?_
  show s.threads.modify u.thread u.dress ++ [thread] = _
  by_cases hf : u.front = []
  · rw [dress_eq_id hf, List.modify_id, List.modify_id]
  · apply List.ext_getElem? fun j => ?_
    have hlt := h.lt hf
    rw [List.getElem?_modify]
    by_cases hj : j < s.threads.length
    · rw [List.getElem?_append_left (by simpa using hj), List.getElem?_append_left hj, List.getElem?_modify]
    · rw [List.getElem?_append_right (by simpa using Nat.le_of_not_lt hj),
        List.getElem?_append_right (Nat.le_of_not_lt hj), List.length_modify]
      simp [Nat.ne_of_lt (Nat.lt_of_lt_of_le hlt (Nat.le_of_not_lt hj))]

theorem Wears.spawn (h : s.Wears u) (code : List (Instr n)) : (s.guise u).spawn code = (s.spawn code).guise u :=
  h.append { code }

theorem modify_comm {α : Type} {f g : α → α} {i j : Nat} (h : i = j → f ∘ g = g ∘ f) (l : List α) :
    (l.modify i f).modify j g = (l.modify j g).modify i f := by
  by_cases hij : i = j
  · subst hij
    rw [List.modify_modify_eq, List.modify_modify_eq, h rfl]
  · exact List.modify_modify_ne f g l hij

@[simp] theorem guise_setAnswer (t : ThreadId) (answer : Answer) :
    (s.guise u).setAnswer t answer = (s.setAnswer t answer).guise u :=
  guise_setThreads (modify_comm (f := u.dress) (g := ({ · with answer })) (fun _ => rfl) s.threads)

theorem guise_setCode {t : ThreadId} (h : u.front = [] ∨ t ≠ u.thread) (code : List (Instr n)) :
    (s.guise u).setCode t code = (s.setCode t code).guise u := by
  refine guise_setThreads (modify_comm (fun ht => ?_) s.threads)
  rw [dress_eq_id (h.resolve_right (· ht.symm))]
  rfl

/-! ## Critical sections -/

theorem Wears.of_code {s' : Pool n} (h : s.Wears u) (hc : s'.code u.thread = s.code u.thread) : s'.Wears u :=
  h.imp_right fun h => hc ▸ h

theorem Wears.spawned (h : s.Wears u) (code : List (Instr n)) : (s.spawn code).Wears u := by
  refine h.imp_right fun h => ?_
  rw [code_eq_getD] at h ⊢
  have hthreads : (s.spawn code).threads = s.threads ++ [({ code } : Thread n)] := rfl
  rw [hthreads]
  cases hx : s.threads[u.thread]? with
  | none => rw [hx] at h; exact absurd rfl h
  | some thread =>
    rw [hx] at h
    rw [List.getElem?_append_left (List.getElem?_eq_some_iff.1 hx).1, hx]
    exact h

theorem guise_foldl_chargeOne (now : Instant) (tasks : Nat) (l : List (Fin n)) (least : Nat) :
    l.foldl (chargeOne now tasks) (s.guise u, least) =
      Prod.map (·.guise u) id (l.foldl (chargeOne now tasks) (s, least)) := by
  induction l generalizing s least with
  | nil => rfl
  | cons e l ih =>
    have hone : chargeOne now tasks (s.guise u, least) e =
        ((chargeOne now tasks (s, least) e).1.guise u, (chargeOne now tasks (s, least) e).2) := by
      have hm : ∀ r : Pool n, (r.guise u).modify e (·.charge now tasks) = (r.modify e (·.charge now tasks)).guise u :=
        fun r => guise_modify r u fun _ _ => rfl
      simp only [chargeOne, guise_chargedAt, guise_emit, hm, guise_runtime]
    rw [List.foldl_cons, List.foldl_cons, hone]
    exact ih _

@[simp] theorem guise_raiseMinimum (least : Nat) : (s.guise u).raiseMinimum least = (s.raiseMinimum least).guise u := by
  unfold raiseMinimum
  rw [guise_minimum]
  split <;> rfl

@[simp] theorem guise_chargeAll (leaving : Option (Fin n)) :
    (s.guise u).chargeAll leaving = (s.chargeAll leaving).guise u := by
  have hleast : (s.guise u).leastQueued = s.leastQueued := rfl
  have hnow : (s.guise u).now = s.now := rfl
  unfold chargeAll
  simp only [guise_running, guise_queue, hleast, hnow, guise_foldl_chargeOne, Prod.map, guise_raiseMinimum, id]

@[simp] theorem guise_push (e : Fin n) : (s.guise u).push e = (s.push e).guise u := by
  unfold push
  rw [guise_emit, guise_runtime]
  rfl

theorem Wears.spawnWorker (h : s.Wears u) (slot : Nat) : (s.guise u).spawnWorker slot = (s.spawnWorker slot).guise u := by
  have hs := h.spawn [.startWorker s.workers.length, .nextSlice s.workers.length]
  unfold Pool.spawnWorker
  simp only [guise_workers, hs]
  rfl

theorem Wears.spawnWatchdog (h : s.Wears u) : (s.guise u).spawnWatchdog = s.spawnWatchdog.guise u := by
  have hs := h.spawn [.startWatchdog, .watch]
  have hl : (s.guise u).threads.length = s.threads.length := List.length_modify ..
  unfold Pool.spawnWatchdog
  simp only [hs, hl]
  rfl

theorem Wears.ensureRunning (h : s.Wears u) : (s.guise u).ensureRunning = s.ensureRunning.guise u := by
  have hwatch : (if s.watchdogAlive then s.guise u else (s.guise u).spawnWatchdog) =
      (if s.watchdogAlive then s else s.spawnWatchdog).guise u := by
    rw [h.spawnWatchdog]
    split <;> rfl
  have hwears : (if s.watchdogAlive then s else s.spawnWatchdog).Wears u := by
    split
    · exact h
    · exact (h.spawned [.startWatchdog, .watch]).of_code rfl
  unfold Pool.ensureRunning
  simp only [h.watchdogAlive, guise_idle, guise_workerCount, guise_slots, hwatch]
  generalize (if s.watchdogAlive then s else s.spawnWatchdog) = s' at hwears
  have hempty : (s'.guise u).emptySlot? = s'.emptySlot? := rfl
  rw [hempty]
  cases s'.emptySlot? <;> simp only [hwears.spawnWorker, apply_ite (fun r : Pool n => r.guise u)] <;> rfl

theorem Wears.enqueue (h : s.Wears u) (e : Fin n) :
    (s.guise u).enqueue e = (s.enqueue e).map (·.guise u) := by
  unfold Pool.enqueue
  rw [guise_phase, guise_stage]
  split
  · rfl
  · split
    · rfl
    · simp only [h.ensureRunning, guise_chargeAll]
      generalize s.ensureRunning.chargeAll none = c
      have hm : (c.guise u).modify e (fun x => { x with
          runtime := entryRuntime x.runtime (c.guise u).minimum (c.guise u).scaledPeriod (c.guise u).config.basePeriod }) =
          (c.modify e fun x => { x with
            runtime := entryRuntime x.runtime c.minimum c.scaledPeriod c.config.basePeriod }).guise u :=
        guise_modify c u fun _ _ => rfl
      rw [hm]
      generalize c.modify e _ = d
      have hw : ∀ r : Pool n, (r.guise u).wakeWorker = r.wakeWorker.guise u := fun _ => rfl
      have hb : ∀ r : Pool n, (r.guise u).isBusy = r.isBusy := fun _ => rfl
      have ho : ∀ r : Pool n, (r.guise u).wakeOneWatchdog = r.wakeOneWatchdog.guise u := fun _ => rfl
      simp only [guise_push, hw, hb, ho, Except.map]
      split <;> rfl

theorem guise_pop (q : List (Entry n)) : (s.guise u).pop q = Prod.map (·.guise u) id (s.pop q) := by
  induction q generalizing s with
  | nil => rfl
  | cons head rest ih =>
    have hq : ({ s.guise u with queue := rest } : Pool n).setStage head.executor .running =
        (({ s with queue := rest } : Pool n).setStage head.executor .running).guise u :=
      guise_setStage { s with queue := rest } u head.executor .running
    unfold pop
    simp only [guise_stage, guise_host, guise_report, hq, ih]
    split <;> rfl

theorem guise_take (w : WorkerId) : (s.guise u).take w = Prod.map (·.guise u) id (s.take w) := by
  have hassign : ∀ (r : Pool n) (e : Fin n), (r.guise u).assign e w = (r.assign e w).guise u := by
    intro r e
    have hm : (r.guise u).modify e (fun x => { x with chargedAt := (r.guise u).now }) =
        (r.modify e fun x => { x with chargedAt := r.now }).guise u := guise_modify r u fun _ _ => rfl
    unfold assign
    simp only [hm, guise_emit]
    rfl
  unfold take
  rw [guise_queue, guise_pop]
  generalize s.pop s.queue = r
  obtain ⟨s', o⟩ := r
  cases o with
  | some e => exact congrArg (·, _) (hassign { s' with idle := s'.idle - 1 } e)
  | none =>
    by_cases hs : s'.phase.isStopping = true
    · simp only [Prod.map, id, guise_phase, hs, if_true]
      rfl
    · simp only [Prod.map, id, guise_phase, hs]
      rfl

theorem guise_settle (e : Fin n) : (s.guise u).settle e = Prod.map (·.guise u) id (s.settle e) := by
  have hc : ({ s.guise u with running := (s.guise u).running.filter (· != e) } : Pool n).chargeAll (some e) =
      (({ s with running := s.running.filter (· != e) } : Pool n).chargeAll (some e)).guise u :=
    guise_chargeAll (s := { s with running := s.running.filter (· != e) }) (some e)
  have hw : ∀ r : Pool n, (r.guise u).wakeWorker = r.wakeWorker.guise u := fun _ => rfl
  unfold settle
  simp only [hc]
  generalize ({ s with running := s.running.filter (· != e) } : Pool n).chargeAll (some e) = c
  simp only [guise_stage, guise_host, guise_report]
  split <;> simp only [guise_setStage, guise_emit, guise_phase, guise_push, hw] <;> split <;> rfl

theorem Wears.vacate (h : s.Wears u) (w : WorkerId) (respawn : Bool) :
    (s.guise u).vacate w respawn = (s.vacate w respawn).guise u := by
  unfold Pool.vacate
  rw [guise_workers]
  cases s.workers[w]? with
  | none => rfl
  | some worker =>
    let left : Pool n := { s with workerCount := s.workerCount - 1, slots := s.slots.set worker.slot none }
    have hs : (left.guise u).spawnWorker worker.slot = (left.spawnWorker worker.slot).guise u :=
      Wears.spawnWorker (s := left) h worker.slot
    have hr := guise_report { s with workerCount := s.workerCount - 1 } u (.slotReplaced worker.slot)
    have hw : ∀ r : Pool n, ({ r.guise u with stopWaiters := [] } : Pool n) =
        ({ r with stopWaiters := [] } : Pool n).guise u := fun _ => rfl
    show ({
      (if s.slots[worker.slot]? = some (some w) then
        if respawn then (left.guise u).spawnWorker worker.slot else left.guise u
      else (({ s with workerCount := s.workerCount - 1 } : Pool n).guise u).report (.slotReplaced worker.slot)) with
      stopWaiters := [] } : Pool n) = _
    rw [hs, hr]
    simp only [← apply_ite (fun r : Pool n => r.guise u), hw]
    rfl

/-! ## The host's side -/

theorem guise_foldl_metrics (notes : List Metrics.Note) :
    notes.foldl (fun s note => s.emit (.metrics note)) (s.guise u) =
      (notes.foldl (fun s note => s.emit (.metrics note)) s).guise u := by
  induction notes generalizing s with
  | nil => rfl
  | cons note notes ih =>
    rw [List.foldl_cons, List.foldl_cons, guise_emit, ih]

@[simp] theorem guise_observe (e : Fin n) (o : Metrics.Observation) : (s.guise u).observe e o = (s.observe e o).guise u := by
  unfold observe
  simp only [guise_host, guise_emit]
  split
  · exact guise_foldl_metrics (s := { s.emit (.observed e o) with
      context := ((s.emit (.observed e o)).context.observe (s.executor e).host.computer o).1 }) _
  · rfl

@[simp] theorem guise_observerFails (e : Fin n) : (s.guise u).observerFails e = s.observerFails e := by
  unfold observerFails
  rw [guise_host]

@[simp] theorem guise_announce (e : Fin n) : (s.guise u).announce e = (s.announce e).guise u := by
  have he := guise_emit { s with context := (s.context.computerUnloaded (s.executor e).host.computer).1 } u (.announced e)
  unfold announce
  simp only [guise_host, guise_context]
  rw [← guise_foldl_metrics, ← he]
  rfl

@[simp] theorem guise_callHost (e : Fin n) (callback : Callback) :
    (s.guise u).callHost e callback = (s.callHost e callback).guise u := by
  unfold callHost
  simp only [guise_host, guise_emit, guise_report]
  split <;> rfl

theorem Wears.refresh (h : s.Wears u) (e : Fin n) : (s.guise u).refresh e = (s.refresh e).guise u := by
  unfold Pool.refresh
  rw [h.share, guise_modifyTimeout, guise_clock]

@[simp] theorem guise_account (e : Fin n) (elapsed : Nat) (slice : SliceRecord) :
    (s.guise u).account e elapsed slice = s.account e elapsed slice := rfl

/-! ## The watchdog -/

@[simp] theorem guise_raise (w : WorkerId) (e : Fin n) (overrun : Duration) :
    (s.guise u).raise w e overrun = Prod.map (·.guise u) id (s.raise w e overrun) := by
  unfold raise
  simp only [guise_modifyTimeout, guise_timeout, guise_host, guise_report]
  split <;> rfl

@[simp] theorem guise_press (w : WorkerId) (e : Fin n) (overrun : Duration) :
    (s.guise u).press w e overrun = Prod.map (·.guise u) id (s.press w e overrun) := by
  unfold press interruptIfRunning
  simp only [guise_config, guise_current, guise_modifyWorker, guise_emit]
  split
  · by_cases hc : s.current? w = some e
    · simp only [hc, if_true]
      rfl
    · simp only [hc, if_false]
      rfl
  · rfl

@[simp] theorem guise_beginReport (w : WorkerId) (e : Fin n) (overrun : Duration) :
    (s.guise u).beginReport w e overrun = Prod.map (·.guise u) id (s.beginReport w e overrun) := by
  have hm : ∀ worker : Worker n, (s.guise u).mayReport worker = s.mayReport worker := fun _ => rfl
  unfold beginReport
  simp only [guise_workers, guise_log, hm, guise_modifyWorker, guise_clock]
  split
  · rfl
  · split <;> rfl

@[simp] theorem guise_writeReport (e : Fin n) (overrun : Duration) (thread : String) :
    (s.guise u).writeReport e overrun thread = (s.writeReport e overrun thread).guise u := by
  unfold writeReport
  simp only [guise_host, guise_callHost, guise_report]

/-! ## The end of the work -/

theorem guise_blame (e : Fin n) (error : Option String) :
    (s.guise u).modify e (·.blame error) =
      (s.modify e (·.blame error)).guise (if e = u.executor then { u with error } else u) := by
  by_cases he : e = u.executor
  · subst he
    have hx : ((s.guise u).modify u.executor (·.blame error)).executors =
        (s.modify u.executor (·.blame error)).executors.set u.executor.val
          (((s.modify u.executor (·.blame error)).executor u.executor).blame error) u.executor.isLt := by
      show (Vector.set _ _ _).set _ _ = (Vector.set _ _ _).set _ _
      rw [Vector.set_set, Vector.set_set]
      simp [Executor.blame, guise_executor]
    rw [if_pos rfl]
    exact congrArg (fun executors => ({ s.guise u with executors } : Pool n)) hx
  · rw [if_neg he]
    exact guise_modify_of s u fun h => absurd h he

theorem guise_handle (e : Fin n) (r : WorkResult) :
    (s.guise u).handle e r = Prod.map (·.guise (u.after (.handle e r))) id (s.handle e r) := by
  rw [handle_eq, handle_eq]
  unfold remark
  cases hm : r.message? with
  | none =>
    simp [Guise.after, hm]
  | some reason =>
    simp only [guise_host, guise_report, guise_blame]
    simp [Guise.after, hm]

/-! ## Steps -/

theorem Wears.call (h : s.Wears u) (t : ThreadId) (c : Call n) :
    (s.guise u).call t c = Prod.map (·.guise u) id (s.call t c) := by
  cases c
  case submit e =>
    simp only [Pool.call, guise_stage, guise_setStage, guise_emit, guise_setAnswer]
    split <;> rfl
  all_goals
    simp only [Pool.call, guise_stage, guise_setStage, guise_modifyTimeout, guise_clock, guise_setAnswer, guise_timeout,
      h.refresh]
  all_goals rfl

theorem guise_afterTake (w : WorkerId) (t : ThreadId) (r : Pool n × Found n) :
    afterTake w t (Prod.map (·.guise u) id r) = Prod.map (·.guise u) id (afterTake w t r) := by
  obtain ⟨s, _ | _ | _⟩ := r <;> rfl

theorem Wears.exec (h : s.Wears u) (t : ThreadId) (i : Instr n) :
    (s.guise u).exec t i = Prod.map (·.guise (u.after i)) id (s.exec t i) := by
  cases i
  case call c =>
    simp only [Pool.exec, h.call]
    rfl
  case enqueue e =>
    simp only [Pool.exec, h.reachable, h.enqueue]
    split
    · cases s.enqueue e with
      | error _ => rfl
      | ok s' => simp [Except.map, Guise.after]
    · rfl
  case handle e r =>
    simp only [Pool.exec, guise_handle]
    rfl
  case withdraw e =>
    simp only [Pool.exec, guise_stage, guise_setStage]
    split <;> simp only [guise_emit, guise_setAnswer] <;> rfl
  case finishUnload e =>
    have hm : (s.guise u).modify e (fun x => { x with unloaded := true }) =
        (s.modify e fun x => { x with unloaded := true }).guise u := guise_modify s u fun _ _ => rfl
    simp only [Pool.exec, guise_unloaded, guise_host, hm, guise_report]
    split <;> rfl
  case sleep w deadline =>
    simp only [Pool.exec, guise_interrupted, guise_setAnswer]
    split <;> rfl
  case doze w deadline =>
    simp only [Pool.exec, guise_clock, guise_setAnswer]
    split <;> rfl
  case seekWork w =>
    have ht : ({ s.guise u with idle := s.idle + 1 } : Pool n).take w =
        Prod.map (·.guise u) id (({ s with idle := s.idle + 1 } : Pool n).take w) :=
      guise_take (s := { s with idle := s.idle + 1 }) w
    simp only [Pool.exec, guise_idle, ht, guise_afterTake]
    rfl
  case awaitWork w =>
    simp only [Pool.exec, guise_take, guise_afterTake]
    rfl
  case resetTimer e slice =>
    simp only [Pool.exec, guise_timeout, guise_clock, guise_modifyTimeout, guise_emit, guise_account]
    rfl
  case settle e =>
    simp only [Pool.exec, guise_settle]
    generalize s.settle e = r
    obtain ⟨s', stage⟩ := r
    cases stage <;> rfl
  case vacate w respawn =>
    simp only [Pool.exec, h.vacate]
    rfl
  case stopWait deadline timeout =>
    simp only [Pool.exec, guise_workerCount, guise_clock, guise_report, guise_setAnswer]
    split
    · rfl
    · split <;> rfl
  case wakeWatchdog =>
    exact congrArg (·, some []) (guise_setAnswer (s := { s with watchWaiters := [] }) t (.result (.ok ())))
  case retire w =>
    simp only [Pool.exec, guise_workers, guise_modifyWorker, guise_emit]
    split
    · split <;> rfl
    · rfl
  case raise w e o =>
    simp only [Pool.exec, guise_raise]
    rfl
  case press w e o =>
    simp only [Pool.exec, guise_press]
    rfl
  case report w e o =>
    simp only [Pool.exec, guise_beginReport]
    rfl
  case nextSlice w =>
    simp only [Pool.exec, guise_workers]
    split <;> rfl
  case noteAllocated w e =>
    simp only [Pool.exec, guise_workers]
    split <;> rfl
  case closeSlice w e a =>
    simp only [Pool.exec, guise_workers, guise_modifyWorker]
    split <;> rfl
  case measure w e =>
    simp only [Pool.exec, guise_timeout, guise_clock, guise_config]
    rfl
  all_goals simp only [Pool.exec, guise_announce, guise_callHost, guise_modifyWorker, guise_emit, guise_observe,
    guise_observerFails, guise_report, guise_host, guise_writeReport]
  all_goals rfl

theorem guise_mustWait (t : ThreadId) (i : Instr n) : (s.guise u).mustWait t i = s.mustWait t i := by
  cases i <;> rfl

theorem Wears.setCode (h : s.Wears u) {t : ThreadId} (ht : u.front = [] ∨ t ≠ u.thread) (code : List (Instr n)) :
    (s.setCode t code).Wears u := by
  rcases ht with ht | ht
  · exact Or.inl ht
  · exact h.of_code (code_setCode_ne s (Ne.symm ht) code)

theorem Wears.code_of (h : s.Wears u) {t : ThreadId} (ht : u.front = [] ∨ t ≠ u.thread) :
    (s.guise u).code t = s.code t := by
  rw [h.code]
  rcases ht with ht | ht
  · simp [ht]
  · rw [if_neg ht]

theorem Wears.step (h : s.Wears u) {t : ThreadId} (ht : u.front = [] ∨ t ≠ u.thread) :
    ∃ error, (s.guise u).step t = (s.step t).guise { u with error } := by
  unfold Pool.step
  rw [h.code_of ht]
  cases s.code t with
  | nil => exact ⟨u.error, rfl⟩
  | cons i rest =>
    simp only [guise_mustWait]
    split
    · exact ⟨u.error, rfl⟩
    · rw [guise_setCode ht, (h.setCode ht rest).exec]
      have hafter : ∃ error, u.after i = { u with error } := by
        unfold Guise.after
        split
        · split
          · exact ⟨_, rfl⟩
          · exact ⟨u.error, rfl⟩
        · exact ⟨u.error, rfl⟩
      obtain ⟨error, hafter⟩ := hafter
      rw [hafter]
      exact ⟨error, guise_setCode (u := { u with error }) ht _⟩

theorem guise_perform (w : WorkerId) (e : Fin n) (a : WorkAction n) :
    (s.guise u).perform w e a = Prod.map (·.guise u) id (s.perform w e a) := by
  cases a <;> simp only [perform, guise_modifyWorker, guise_emit] <;> rfl

/-- The thread of a guise has something to do that is not within the work of an executor. -/
structure Waits (s : Pool n) (u : Guise n) : Prop where
  busy : s.code u.thread ≠ []
  outside : ∀ i ∈ u.front ++ s.code u.thread, ∀ w e, i ≠ .work w e

theorem guise_act {a : Action n} (h : u.front = [] ∨ s.Waits u ∧ a ≠ .step u.thread) :
    ∃ error, (s.guise u).act a = (s.act a).guise { u with error } := by
  have hwears : s.Wears u := h.imp_right fun h => h.1.busy
  cases a with
  | step t => exact hwears.step (h.imp_right fun h => fun heq => h.2 (heq ▸ rfl))
  | call c => exact ⟨u.error, hwears.append _⟩
  | work t x =>
    refine ⟨u.error, ?_⟩
    by_cases ht : u.front = [] ∨ t ≠ u.thread
    · simp only [Pool.act, hwears.code_of ht]
      split
      · simp only [guise_perform]
        exact guise_setCode ht _
      · rfl
    · obtain ⟨hf, rfl⟩ : u.front ≠ [] ∧ t = u.thread := by simpa using ht
      obtain ⟨hw, -⟩ := h.resolve_left hf
      have hnone : ∀ r : Pool n, (∀ i ∈ r.code u.thread, ∀ w e, i ≠ .work w e) →
          r.act (.work u.thread x) = r := by
        intro r hr
        simp only [Pool.act]
        split
        · rename_i w e rest hcode
          exact absurd rfl (hr _ (hcode ▸ List.mem_cons_self ..) w e)
        · rfl
      rw [hnone s fun i hi => hw.outside i (List.mem_append_right _ hi), hnone (s.guise u) fun i hi => ?_]
      refine hw.outside i ?_
      rw [hwears.code, if_pos rfl] at hi
      exact hi
  | advance nanos => exact ⟨u.error, rfl⟩
  | release => exact ⟨u.error, rfl⟩

/-- A pool in a guise goes the same way as long as the thread of the guise takes no step. -/
theorem Waits.run (h : s.Waits u) {l : List (Action n)} (hl : ∀ a ∈ l, a ≠ .step u.thread) :
    (s.run l).code u.thread = s.code u.thread ∧ ∃ error, (s.guise u).run l = (s.run l).guise { u with error } := by
  induction l generalizing s u with
  | nil => exact ⟨rfl, u.error, rfl⟩
  | cons a l ih =>
    rw [List.forall_mem_cons] at hl
    obtain ⟨error, hact⟩ := guise_act (Or.inr ⟨h, hl.1⟩)
    have hcode : (s.act a).code u.thread = s.code u.thread := by
      refine act_code s hl.1 (fun w e rest hc => ?_) h.busy
      exact h.outside _ (List.mem_append_right _ (hc ▸ List.mem_cons_self ..)) w e rfl
    have hwaits : (s.act a).Waits { u with error } := ⟨hcode ▸ h.busy, by rw [hcode]; exact h.outside⟩
    obtain ⟨hcode', error', hrun⟩ := ih hwaits hl.2
    exact ⟨hcode'.trans hcode, error', (congrArg (·.run l) hact).trans hrun⟩

end Pool

end FairShare.Scheduler

import FairShare.Proofs.Books

/-!
# The effect of an instruction

What each instruction can do to the books, and which instructions can come next. `Instr.Effect` says the
first for those instructions that change the books (every other one leaves them as they are), `Instr.Leads`
says the second for all of them. The theory of the scheduler is built on these two relations and never
looks into `Pool.exec` again.
-/

namespace FairShare.Scheduler

variable {n : Nat}

/-! ## Changes of the books -/

namespace Books

/-- Puts an executor into the run queue. -/
@[simp] def push (b : Books n) (e : Fin n) (arrival : Nat) : Books n :=
  { b.mark e .pushed with queue := Entry.insert ⟨b.runtime e, arrival, e⟩ b.queue }

/-- Nothing but the virtual runtimes of some executors changes. -/
def Charged (l : List (Fin n)) (b b' : Books n) : Prop :=
  b' = { b with runtime := b'.runtime } ∧ ∀ e, e ∉ l → b'.runtime e = b.runtime e

/-- Starts a worker. -/
def hireWorker (b : Books n) : Books n :=
  { b with
    current := b.current ++ [none]
    live := b.live ++ [true]
    codes := b.codes ++ [[.startWorker b.current.length, .nextSlice b.current.length]] }

/-- Starts a watchdog. -/
def hireWatchdog (b : Books n) : Books n :=
  { b with codes := b.codes ++ [[.startWatchdog, .watch]] }

/-- Some threads are started. -/
inductive Hires : Books n → Books n → Prop where
  /-- None. -/
  | refl (b : Books n) : Hires b b
  /-- A worker, and others. -/
  | worker {b b' : Books n} (h : Hires b.hireWorker b') : Hires b b'
  /-- A watchdog, and others. -/
  | watchdog {b b' : Books n} (h : Hires b.hireWatchdog b') : Hires b b'

/-- A worker looks for an executor: those at the head of the run queue that are not queued any more are
dropped, and the next one is taken. -/
inductive Takes (b : Books n) : Books n → Option (Fin n) → Prop where
  /-- There is one. -/
  | found (skipped : List (Entry n)) (head : Entry n) (rest : List (Entry n)) (faults : List (Event n))
      (hq : b.queue = skipped ++ head :: rest)
      (hs : ∀ q ∈ skipped, b.stage q.executor ≠ .queued)
      (hf : (∀ q ∈ skipped, b.stage q.executor = .done) → faults = [])
      (hh : b.stage head.executor = .queued) :
      Takes b (({ b with
          queue := rest
          running := b.running ++ [head.executor]
          faults := b.faults ++ faults }.setStage head.executor .running).mark head.executor .taken)
        (some head.executor)
  /-- There is none. -/
  | nothing (faults : List (Event n)) (hs : ∀ q ∈ b.queue, b.stage q.executor ≠ .queued)
      (hf : (∀ q ∈ b.queue, b.stage q.executor = .done) → faults = []) :
      Takes b { b with queue := [], faults := b.faults ++ faults } none

/-- The stay of an executor on a worker ends: it is charged, and queued again if it was submitted. -/
def Settles (b : Books n) (e : Fin n) (b' : Books n) : Prop :=
  ∃ (c : Books n) (faults : List (Event n)) (arrival : Nat),
    Charged (b.running.filter (· != e) ++ [e]) { b with running := b.running.filter (· != e) } c ∧
    (b.stage e ≠ .idle → b.stage e ≠ .queued → faults = []) ∧
    b' = if b.stage e = .repeating ∧ b.phase ≠ .closed then
        (({ c with faults := c.faults ++ faults }.setStage e (b.stage e).sliceEnded).mark e .settled).push e
          arrival
      else ({ c with faults := c.faults ++ faults }.setStage e (b.stage e).sliceEnded).mark e .settled

/-- An executor that was submitted is put into the run queue. -/
def Enqueues (b : Books n) (e : Fin n) (b' : Books n) : Prop :=
  ∃ (hired c : Books n) (arrival : Nat), Hires b hired ∧ Charged (hired.running ++ [e]) hired c ∧
    b.phase = .running ∧ b.stage e ≠ .done ∧ b' = (c.push e arrival).mark e .accepted

theorem Charged.refl (b : Books n) : Charged [] b b := ⟨rfl, fun _ _ => rfl⟩

theorem Charged.trans {l l' : List (Fin n)} {b b' b'' : Books n} (h : Charged l b b')
    (h' : Charged l' b' b'') : Charged (l ++ l') b b'' := by
  refine ⟨?_, fun e he => ?_⟩
  · have := h'.1
    rw [h.1] at this
    exact this
  · simp only [List.mem_append, not_or] at he
    rw [h'.2 e he.2, h.2 e he.1]

theorem Charged.eq {l : List (Fin n)} {b b' : Books n} (h : Charged l b b') :
    ∃ runtime, b' = { b with runtime } ∧ ∀ e, e ∉ l → runtime e = b.runtime e :=
  ⟨b'.runtime, h.1, h.2⟩

/-- Starting threads changes nothing but the workers and the threads. -/
theorem Hires.eq {b b' : Books n} (h : b.Hires b') :
    ∃ current live codes, b' = { b with current, live, codes } := by
  induction h with
  | refl b => exact ⟨b.current, b.live, b.codes, rfl⟩
  | worker _ ih =>
    obtain ⟨current, live, codes, rfl⟩ := ih
    exact ⟨current, live, codes, rfl⟩
  | watchdog _ ih =>
    obtain ⟨current, live, codes, rfl⟩ := ih
    exact ⟨current, live, codes, rfl⟩

/-- The threads that are there stay as they are when others are started. -/
theorem Hires.codes {b b' : Books n} (h : b.Hires b') {t : Nat} {code : List (Instr n)}
    (ht : b.codes[t]? = some code) : b'.codes[t]? = some code := by
  induction h with
  | refl b => exact ht
  | worker _ ih =>
    exact ih ((List.getElem?_append_left (List.getElem?_eq_some_iff.1 ht).1).trans ht)
  | watchdog _ ih =>
    exact ih ((List.getElem?_append_left (List.getElem?_eq_some_iff.1 ht).1).trans ht)

end Books

/-! ## Instructions -/

namespace Instr

/-- Whether an instruction leaves the books alone. -/
def isQuiet : Instr n → Bool
  | .call (.submit _) | .call (.unload _) | .call (.stop _) | .enqueue _ | .withdraw _ | .dequeue _
  | .finishUnload _ | .callHost _ .unload | .announce _ | .seekWork _ | .awaitWork _ | .publish _ _ _
  | .closeSlice _ _ _ | .settle _ | .retire _ | .takeAbandoned _ | .vacate _ _ | .close => false
  | _ => true

/-- What an instruction does to the books, together with the instructions that come next. -/
def Effect (b b' : Books n) (next : List (Instr n)) : Instr n → Prop
  | .call (.submit e) =>
    (b.stage e = .idle ∧ b' = b.setStage e .queued ∧ next = [.enqueue e]) ∨
    (b.stage e ≠ .idle ∧ b' = (b.setStage e (b.stage e).submitted).mark e .accepted ∧ next = [])
  | .call (.unload e) => b' = b.setStage e .done ∧
    next = match b.stage e with
      | .queued => [.dequeue e, .finishUnload e]
      | .idle => [.finishUnload e]
      | _ => []
  | .call (.stop timeout) =>
    b' = { b with phase := b.phase.later .stopping } ∧ next = [.collect timeout]
  | .enqueue e =>
    (b' = b ∧ next = [.withdraw e]) ∨
    (b.stage e = .done ∧ b' = b.mark e .accepted ∧ next = []) ∨
    (b.Enqueues e b' ∧ next = [])
  | .withdraw e =>
    b' = (if b.stage e = .queued then b.setStage e .idle else b).mark e .refused ∧ next = []
  | .dequeue e => b' = { b with queue := b.queue.filter (·.executor != e) } ∧ next = []
  | .finishUnload e =>
    (b.unloaded e = true ∧ b' = b ∧ next = []) ∨
    (b.unloaded e = false ∧
      b' = { b with unloaded := fun e' => if e' = e then true else b.unloaded e' } ∧
      next = [.callHost e .unload, .announce e])
  | .callHost e .unload => b' = b.mark e .unloaded ∧ next = []
  | .announce e => b' = b.mark e .announced ∧ next = []
  | .seekWork w | .awaitWork w =>
    (∃ e, b.Takes b' (some e) ∧ next = [.openSlice w e]) ∨
    (b.Takes b' none ∧ (next = [.retire w] ∨ next = [.awaitWork w]))
  | .publish w e allocated => b' = { b with current := b.current.set w (some e) } ∧
    next = [.callWork w e, .closeSlice w e allocated]
  | .closeSlice w e _ => b' = { b with current := b.current.set w none } ∧
    ((∃ e' slice, b.current[w]? = some (some e') ∧ next = [.resetTimer e slice]) ∨
      ((∀ e', b.current[w]? ≠ some (some e')) ∧ next = []))
  | .settle e => b.Settles e b' ∧ next = if b.stage e = .done then [.finishUnload e] else []
  | .retire w =>
    (b.live[w]? = some true ∧ b' = { b with live := b.live.set w false } ∧
      next = [.takeAbandoned w, .decideRespawn w]) ∨
    (b.live[w]? ≠ some true ∧ b' = b ∧ next = [])
  | .takeAbandoned w => b' = { b with current := b.current.set w none } ∧
    ((∃ e, b.current[w]? = some (some e) ∧ next = [.resetTimer e .abandoned]) ∨
      ((∀ e, b.current[w]? ≠ some (some e)) ∧ next = []))
  | .vacate _ _ => b.Hires b' ∧ next = []
  | .close => b' = { b with phase := b.phase.later .closed } ∧ next = [.wakeWatchdog]
  | _ => b' = b

/-- Something that the work of an executor has its thread do before it goes on. -/
def Within (w : WorkerId) (e : Fin n) (i : Instr n) : Prop :=
  (∃ c, i = .call c) ∨ (∃ deadline, i = .sleep w deadline) ∨ ∃ o, i = .observe e o

/-- The instructions that can come next after one. -/
def Leads (next : List (Instr n)) : Instr n → Prop
  | .call (.submit e) => next = [] ∨ next = [.enqueue e]
  | .call (.unload e) => next = [] ∨ next = [.finishUnload e] ∨ next = [.dequeue e, .finishUnload e]
  | .call (.arm e _) | .call (.startTimer e) => next = [.call (.refresh e)]
  | .call (.stop timeout) => next = [.collect timeout]
  | .enqueue e => next = [] ∨ next = [.withdraw e]
  | .finishUnload e => next = [] ∨ next = [.callHost e .unload, .announce e]
  | .nextSlice w => next = [] ∨ next = [.retire w] ∨ next = [.seekWork w, .nextSlice w]
  | .seekWork w | .awaitWork w =>
    (∃ e, next = [.openSlice w e]) ∨ next = [.retire w] ∨ next = [.awaitWork w]
  | .openSlice w e => next = [.call (.unload e), .resetTimer e .never] ∨
    next = [.clearInterrupt w, .call (.startTimer e), .noteAllocated w e]
  | .noteAllocated w e => next = [] ∨ ∃ allocated, next = [.publish w e allocated]
  | .publish w e allocated => next = [.callWork w e, .closeSlice w e allocated]
  | .callWork w e => next = [.work w e]
  | .work w e => (∃ j, j.Within w e ∧ next = [j, .work w e]) ∨ next = [.work w e] ∨
    ∃ result, next = [.handle e result]
  | .sleep w deadline => next = [] ∨ next = [.doze w deadline]
  | .doze w deadline => next = [] ∨ next = [.sleep w deadline]
  | .handle e _ => next = [] ∨ next = [.callHost e .abortWithError]
  | .closeSlice _ e _ => next = [] ∨ ∃ slice, next = [.resetTimer e slice]
  | .resetTimer e _ => ∃ accounts : List (Instr n),
    (∀ i ∈ accounts, (∃ o, i = .account e o) ∨ ∃ before after, i = .warnAllocation e before after) ∧
    next = accounts ++ [.settle e]
  | .settle e => next = [] ∨ next = [.finishUnload e]
  | .retire w => next = [] ∨ next = [.takeAbandoned w, .decideRespawn w]
  | .takeAbandoned _ => next = [] ∨ ∃ e, next = [.resetTimer e .abandoned]
  | .decideRespawn w => ∃ respawn, next = [.vacate w respawn]
  | .watch => next = [] ∨ next = [.beginWatch]
  | .beginWatch => ∃ deadline, next = [.watching deadline, .inspect, .watch]
  | .inspect => ∃ ws : List WorkerId, next = ws.map .checkWorker
  | .checkWorker w => next = [] ∨ ∃ e, next = [.call (.refresh e), .measure w e]
  | .measure w e => next = [] ∨ ∃ overrun, next = [.raise w e overrun]
  | .raise w e overrun => next = [.press w e overrun] ∨
    next = [.callHost e .abortWithTimeout, .press w e overrun]
  | .press w e overrun => next = [] ∨ next = [.report w e overrun] ∨
    next = [.report w e overrun, .retire w]
  | .report _ e overrun => next = [] ∨ ∃ thread, next = [.writeReport e overrun thread]
  | .collect timeout => ∃ es : List (Fin n),
    next = es.map (.call ∘ .hardAbort) ++ [.wakeWorkers, .beginStopWait timeout]
  | .beginStopWait timeout => ∃ deadline, next = [.stopWait deadline timeout]
  | .stopWait deadline timeout => next = [] ∨ next = [.close] ∨ next = [.stopWait deadline timeout]
  | .close => next = [.wakeWatchdog]
  | _ => next = []

end Instr

/-! ## What an instruction keeps -/

namespace Books

variable {b b' : Books n}

theorem Takes.staff {o : Option (Fin n)} (h : b.Takes b' o) :
    b'.current = b.current ∧ b'.live = b.live ∧ b'.codes = b.codes := by
  cases h <;> exact ⟨rfl, rfl, rfl⟩

theorem Settles.staff {e : Fin n} (h : b.Settles e b') :
    b'.current = b.current ∧ b'.live = b.live ∧ b'.codes = b.codes := by
  obtain ⟨c, faults, arrival, hc, -, rfl⟩ := h
  obtain ⟨runtime, rfl, -⟩ := hc.eq
  split <;> exact ⟨rfl, rfl, rfl⟩

theorem Takes.marks {o : Option (Fin n)} (h : b.Takes b' o) (e : Fin n) :
    b.marks e <+: b'.marks e := by
  cases h
  · exact List.prefix_append ..
  · exact List.prefix_refl _

theorem Settles.marks {e : Fin n} (h : b.Settles e b') (e' : Fin n) : b.marks e' <+: b'.marks e' := by
  obtain ⟨c, faults, arrival, hc, -, rfl⟩ := h
  obtain ⟨runtime, rfl, -⟩ := hc.eq
  split
  · simp only [push, mark, setStage, List.append_assoc]
    exact List.prefix_append ..
  · exact List.prefix_append ..

theorem Enqueues.marks {e : Fin n} (h : b.Enqueues e b') (e' : Fin n) : b.marks e' <+: b'.marks e' := by
  obtain ⟨hired, c, arrival, hh, hc, -, -, rfl⟩ := h
  obtain ⟨runtime, rfl, -⟩ := hc.eq
  obtain ⟨current, live, codes, rfl⟩ := hh.eq
  simp only [push, mark, List.append_assoc]
  exact List.prefix_append ..

end Books

namespace Instr

variable {b b' : Books n}

/-- An instruction that neither publishes nor withdraws a slice, nor retires a worker, may start threads, and
is then the last of what it is part of. -/
theorem Effect.staff {i : Instr n} {next : List (Instr n)} (he : i.Effect b b' next)
    (hp : ∀ w e a, i ≠ .publish w e a) (hc : ∀ w e a, i ≠ .closeSlice w e a)
    (ht : ∀ w, i ≠ .takeAbandoned w) (hr : ∀ w, i = .retire w → next = []) :
    ∃ hired, b.Hires hired ∧ b'.current = hired.current ∧ b'.live = hired.live ∧
      b'.codes = hired.codes ∧ (hired = b ∨ next = [] ∧ ∀ e, i ≠ .callHost e .unload) := by
  have hkeep : b'.current = b.current ∧ b'.live = b.live ∧ b'.codes = b.codes →
      ∃ hired, b.Hires hired ∧ b'.current = hired.current ∧ b'.live = hired.live ∧
        b'.codes = hired.codes ∧ (hired = b ∨ next = [] ∧ ∀ e, i ≠ .callHost e .unload) :=
    fun ⟨hcurrent, hlive, hcodes⟩ => ⟨b, .refl b, hcurrent, hlive, hcodes, Or.inl rfl⟩
  cases i
  case enqueue e =>
    rcases he with ⟨rfl, -⟩ | ⟨-, rfl, -⟩ | ⟨⟨hired, c, arrival, hh, hc, -, -, rfl⟩, rfl⟩
    · exact hkeep ⟨rfl, rfl, rfl⟩
    · exact hkeep ⟨rfl, rfl, rfl⟩
    · obtain ⟨runtime, rfl, -⟩ := hc.eq
      exact ⟨hired, hh, rfl, rfl, rfl, Or.inr ⟨rfl, by simp⟩⟩
  case vacate w respawn =>
    obtain ⟨hh, rfl⟩ := he
    exact ⟨b', hh, rfl, rfl, rfl, Or.inr ⟨rfl, by simp⟩⟩
  all_goals apply hkeep
  case call c =>
    cases c
    case submit e => rcases he with ⟨-, rfl, -⟩ | ⟨-, rfl, -⟩ <;> exact ⟨rfl, rfl, rfl⟩
    case unload e => obtain ⟨rfl, -⟩ := he; exact ⟨rfl, rfl, rfl⟩
    case stop timeout => obtain ⟨rfl, -⟩ := he; exact ⟨rfl, rfl, rfl⟩
    all_goals cases he; exact ⟨rfl, rfl, rfl⟩
  case withdraw e => obtain ⟨rfl, -⟩ := he; split <;> exact ⟨rfl, rfl, rfl⟩
  case dequeue e => obtain ⟨rfl, -⟩ := he; exact ⟨rfl, rfl, rfl⟩
  case finishUnload e => rcases he with ⟨-, rfl, -⟩ | ⟨-, rfl, -⟩ <;> exact ⟨rfl, rfl, rfl⟩
  case callHost e callback =>
    cases callback
    case unload => obtain ⟨rfl, -⟩ := he; exact ⟨rfl, rfl, rfl⟩
    all_goals cases he; exact ⟨rfl, rfl, rfl⟩
  case announce e => obtain ⟨rfl, -⟩ := he; exact ⟨rfl, rfl, rfl⟩
  case seekWork w => rcases he with ⟨e, ht, -⟩ | ⟨ht, -⟩ <;> exact ht.staff
  case awaitWork w => rcases he with ⟨e, ht, -⟩ | ⟨ht, -⟩ <;> exact ht.staff
  case publish w e a => exact absurd rfl (hp w e a)
  case closeSlice w e a => exact absurd rfl (hc w e a)
  case settle e => exact he.1.staff
  case retire w =>
    rcases he with ⟨-, -, hnext⟩ | ⟨-, rfl, -⟩
    · rw [hr w rfl] at hnext; cases hnext
    · exact ⟨rfl, rfl, rfl⟩
  case takeAbandoned w => exact absurd rfl (ht w)
  case close => obtain ⟨rfl, -⟩ := he; exact ⟨rfl, rfl, rfl⟩
  all_goals cases he; exact ⟨rfl, rfl, rfl⟩

/-- The threads that are there are left alone. -/
theorem Effect.codes {i : Instr n} {next : List (Instr n)} (he : i.Effect b b' next) {t : ThreadId}
    {code : List (Instr n)} (ht : b.codes[t]? = some code) : b'.codes[t]? = some code := by
  by_cases hp : ∃ w e a, i = .publish w e a
  · obtain ⟨w, e, a, rfl⟩ := hp
    obtain ⟨rfl, -⟩ := he
    exact ht
  by_cases hc : ∃ w e a, i = .closeSlice w e a
  · obtain ⟨w, e, a, rfl⟩ := hc
    obtain ⟨rfl, -⟩ := he
    exact ht
  by_cases ha : ∃ w, i = .takeAbandoned w
  · obtain ⟨w, rfl⟩ := ha
    obtain ⟨rfl, -⟩ := he
    exact ht
  by_cases hr : ∃ w, i = .retire w
  · obtain ⟨w, rfl⟩ := hr
    rcases he with ⟨-, rfl, -⟩ | ⟨-, rfl, -⟩ <;> exact ht
  obtain ⟨hired, hh, -, -, hcodes, -⟩ := he.staff (fun w e a hi => hp ⟨w, e, a, hi⟩)
    (fun w e a hi => hc ⟨w, e, a, hi⟩) (fun w hi => ha ⟨w, hi⟩) fun w hi => absurd ⟨w, hi⟩ hr
  rw [hcodes]
  exact hh.codes ht

/-- The fate of an executor only grows. -/
theorem Effect.marks {i : Instr n} {next : List (Instr n)} (he : i.Effect b b' next) (e : Fin n) :
    b.marks e <+: b'.marks e := by
  cases i
  case call c =>
    cases c
    case submit e' =>
      rcases he with ⟨-, rfl, -⟩ | ⟨-, rfl, -⟩
      · exact List.prefix_refl _
      · exact List.prefix_append ..
    case unload e' => obtain ⟨rfl, -⟩ := he; exact List.prefix_refl _
    case stop timeout => obtain ⟨rfl, -⟩ := he; exact List.prefix_refl _
    all_goals cases he; exact List.prefix_refl _
  case enqueue e' =>
    rcases he with ⟨rfl, -⟩ | ⟨-, rfl, -⟩ | ⟨he, -⟩
    · exact List.prefix_refl _
    · exact List.prefix_append ..
    · exact he.marks e
  case withdraw e' => obtain ⟨rfl, -⟩ := he; split <;> exact List.prefix_append ..
  case dequeue e' => obtain ⟨rfl, -⟩ := he; exact List.prefix_refl _
  case finishUnload e' => rcases he with ⟨-, rfl, -⟩ | ⟨-, rfl, -⟩ <;> exact List.prefix_refl _
  case callHost e' callback =>
    cases callback
    case unload => obtain ⟨rfl, -⟩ := he; exact List.prefix_append ..
    all_goals cases he; exact List.prefix_refl _
  case announce e' => obtain ⟨rfl, -⟩ := he; exact List.prefix_append ..
  case seekWork w => rcases he with ⟨e', ht, -⟩ | ⟨ht, -⟩ <;> exact ht.marks e
  case awaitWork w => rcases he with ⟨e', ht, -⟩ | ⟨ht, -⟩ <;> exact ht.marks e
  case publish w e' a => obtain ⟨rfl, -⟩ := he; exact List.prefix_refl _
  case closeSlice w e' a => obtain ⟨rfl, -⟩ := he; exact List.prefix_refl _
  case settle e' => exact he.1.marks e
  case retire w => rcases he with ⟨-, rfl, -⟩ | ⟨-, rfl, -⟩ <;> exact List.prefix_refl _
  case takeAbandoned w => obtain ⟨rfl, -⟩ := he; exact List.prefix_refl _
  case vacate w respawn =>
    obtain ⟨current, live, codes, rfl⟩ := he.1.eq
    exact List.prefix_refl _
  case close => obtain ⟨rfl, -⟩ := he; exact List.prefix_refl _
  all_goals cases he; exact List.prefix_refl _

end Instr

namespace Pool

/-! ## Charging -/

/-- A change of the virtual runtime of an executor, and of nothing else that the theory looks at. -/
theorem books_modify_runtime (s : Pool n) (e : Fin n) {f : Executor → Executor}
    (hs : ∀ x, (f x).stage = x.stage) (hu : ∀ x, (f x).unloaded = x.unloaded) :
    Books.Charged [e] s.books (s.modify e f).books := by
  have hx : ∀ e', (s.modify e f).executor e' = if e' = e then f (s.executor e) else s.executor e' :=
    fun e' => executor_modify_eq s e e' f
  refine ⟨?_, fun e' h => ?_⟩
  · apply Books.ext
    all_goals first | rfl | skip
    all_goals
      funext e'
      simp only [books, hx]
      split
      · subst_vars; first | exact hs _ | exact hu _
      · rfl
  · simp only [books, hx]
    rw [if_neg (by simpa using h)]

theorem books_chargeOne (now : Instant) (tasks : Nat) (acc : Pool n × Nat) (e : Fin n) :
    Books.Charged [e] acc.1.books (chargeOne now tasks acc e).1.books := by
  have he : (acc.1.emit (.charged e (acc.1.executor e).chargedAt now tasks)).books = acc.1.books :=
    books_emit_plain _ rfl rfl
  rw [← he]
  exact books_modify_runtime _ e (fun _ => rfl) fun _ => rfl

theorem books_foldl_charge (now : Instant) (tasks : Nat) (l : List (Fin n)) (acc : Pool n × Nat) :
    Books.Charged l acc.1.books (l.foldl (chargeOne now tasks) acc).1.books := by
  induction l generalizing acc with
  | nil => exact .refl _
  | cons e l ih => exact (books_chargeOne now tasks acc e).trans (ih _)

/-- Charging touches the virtual runtimes of those who pay. -/
theorem books_chargeAll (s : Pool n) (leaving : Option (Fin n)) :
    Books.Charged (s.running ++ leaving.toList) s.books (s.chargeAll leaving).books := by
  have h := books_foldl_charge s.now (1 + s.queue.length) (s.running ++ leaving.toList)
    (s, s.leastQueued)
  have hr : ∀ (s : Pool n) (least : Nat), (s.raiseMinimum least).books = s.books := by
    intro s least
    unfold raiseMinimum
    split <;> rfl
  unfold chargeAll
  simp only
  rw [hr]
  exact h

theorem books_push (s : Pool n) (e : Fin n) : (s.push e).books = s.books.push e s.nextArrival := by
  have h : (s.push e).books = { (s.emit (.queued e)).books with
      queue := Entry.insert ⟨(s.executor e).runtime, s.nextArrival, e⟩ s.queue } := rfl
  rw [h, books_emit_mark s (e := e) (m := .pushed) rfl rfl]
  rfl

/-! ## Starting threads -/

theorem books_spawnWorker (s : Pool n) (slot : Nat) :
    (s.spawnWorker slot).books = s.books.hireWorker := by
  simp [spawnWorker, spawn, books, Books.hireWorker, executor]

theorem books_spawnWatchdog (s : Pool n) : s.spawnWatchdog.books = s.books.hireWatchdog := by
  simp [spawnWatchdog, spawn, books, Books.hireWatchdog, executor]

/-- A watchdog is started unless it is alive, and then a worker unless one is idle or no slot is empty. -/
theorem ensureRunning_cases (s : Pool n) :
    ∃ s', (s.watchdogAlive = true ∧ s' = s ∨ s.watchdogAlive = false ∧ s' = s.spawnWatchdog) ∧
      (s.ensureRunning = s' ∧ (0 < s.idle ∨ s.workerCount = s.slots.length ∨ none ∉ s.slots) ∨
        ∃ slot, s.slots[slot]? = some none ∧ s.ensureRunning = s'.spawnWorker slot) := by
  have hslots : (if s.watchdogAlive then s else s.spawnWatchdog).slots = s.slots := by
    split <;> rfl
  refine ⟨if s.watchdogAlive then s else s.spawnWatchdog, ?_, ?_⟩
  · split
    · next halive => exact Or.inl ⟨halive, rfl⟩
    · next halive => exact Or.inr ⟨Bool.eq_false_iff.2 halive, rfl⟩
  · unfold ensureRunning
    split
    · next hrun =>
      simp only [Bool.and_eq_true, Bool.or_eq_true, decide_eq_true_eq, beq_iff_eq] at hrun
      rw [if_pos hrun.1]
      exact Or.inl ⟨rfl, hrun.2.imp_right Or.inl⟩
    · simp only
      generalize (if s.watchdogAlive then s else s.spawnWatchdog) = s' at hslots ⊢
      split
      · unfold emptySlot?
        rw [hslots]
        split
        · next slot hslot =>
          obtain ⟨hlt, hnone, -⟩ := List.findIdx?_eq_some_iff_getElem.1 hslot
          refine Or.inr ⟨slot, ?_, rfl⟩
          rw [List.getElem?_eq_getElem hlt]
          simpa using hnone
        · next hslot =>
          refine Or.inl ⟨rfl, Or.inr (Or.inr fun hm => ?_)⟩
          simpa using List.findIdx?_eq_none_iff.1 hslot _ hm
      · next hidle => exact Or.inl ⟨rfl, Or.inl (Nat.pos_of_ne_zero hidle)⟩

theorem books_ensureRunning (s : Pool n) : Books.Hires s.books s.ensureRunning.books := by
  obtain ⟨s', hwatch, hrun⟩ := s.ensureRunning_cases
  have hworker : Books.Hires s'.books s.ensureRunning.books := by
    rcases hrun with ⟨hrun, -⟩ | ⟨slot, -, hrun⟩
    · rw [hrun]
      exact .refl _
    · rw [hrun, books_spawnWorker]
      exact .worker (.refl _)
  rcases hwatch with ⟨-, rfl⟩ | ⟨-, rfl⟩
  · exact hworker
  · rw [books_spawnWatchdog] at hworker
    exact .watchdog hworker

theorem books_vacate (s : Pool n) (w : WorkerId) (respawn : Bool) :
    Books.Hires s.books (s.vacate w respawn).books := by
  unfold vacate
  split
  · exact .refl _
  · rename_i worker _
    simp only
    split
    · split
      · have h := books_spawnWorker { s with
            workerCount := s.workerCount - 1, slots := s.slots.set worker.slot none } worker.slot
        refine .worker ?_
        exact h ▸ .refl _
      · exact .refl _
    · have h := books_emit_plain { s with workerCount := s.workerCount - 1 }
        (v := .reported (.slotReplaced worker.slot)) rfl rfl
      exact h ▸ .refl _

/-! ## What comes next -/

theorem handle_leads (s : Pool n) (e : Fin n) (result : WorkResult) :
    (Instr.handle e result).Leads (s.handle e result).2 := by
  unfold handle
  cases result with
  | ok => exact Or.inl rfl
  | error error =>
    simp only
    split
    · exact Or.inr rfl
    · exact Or.inl rfl
  | crashed reason => exact Or.inr rfl

theorem press_leads (s : Pool n) (w : WorkerId) (e : Fin n) (overrun : Duration) :
    (Instr.press w e overrun).Leads (s.press w e overrun).2 := by
  unfold press
  simp only
  split
  · split
    · split
      · exact Or.inr (Or.inr rfl)
      · exact Or.inr (Or.inl rfl)
    · exact Or.inl rfl
  · exact Or.inl rfl

theorem beginReport_leads (s : Pool n) (w : WorkerId) (e : Fin n) (overrun : Duration) :
    (Instr.report w e overrun).Leads (s.beginReport w e overrun).2 := by
  unfold beginReport
  split
  · exact Or.inl rfl
  · split
    · exact Or.inr ⟨_, rfl⟩
    · exact Or.inl rfl

theorem account_leads (s : Pool n) (e : Fin n) (elapsed : Nat) (slice : SliceRecord) :
    (Instr.resetTimer e slice).Leads (s.account e elapsed slice ++ [.settle e]) := by
  refine ⟨_, ?_, rfl⟩
  intro i hi
  unfold account at hi
  cases slice with
  | never => simp at hi
  | abandoned => exact Or.inl ⟨_, by simpa using hi⟩
  | ran before after =>
    simp only at hi
    split at hi
    · simp only [List.mem_cons, List.not_mem_nil, or_false] at hi
      rcases hi with rfl | rfl
      · exact Or.inl ⟨_, rfl⟩
      · exact Or.inl ⟨_, rfl⟩
    · split at hi
      · simp only [List.mem_cons, List.not_mem_nil, or_false] at hi
        rcases hi with rfl | rfl
        · exact Or.inl ⟨_, rfl⟩
        · exact Or.inr ⟨_, _, rfl⟩
      · exact Or.inl ⟨_, by simpa using hi⟩

theorem afterTake_leads (w : WorkerId) (t : ThreadId) (r : Pool n × Found n) :
    (Instr.seekWork w).Leads (afterTake w t r).2 := by
  obtain ⟨s, found⟩ := r
  cases found with
  | work e => exact Or.inl ⟨e, rfl⟩
  | «over» => exact Or.inr (Or.inl rfl)
  | nothing => exact Or.inr (Or.inr rfl)

/-- What comes next after an instruction is one of the things that can. -/
theorem exec_leads (s : Pool n) (t : ThreadId) (i : Instr n) {next : List (Instr n)}
    (h : (s.exec t i).2 = some next) : i.Leads next := by
  cases i
  case call c =>
    cases c
    case submit e =>
      simp only [exec, call] at h
      split at h
      · cases h; exact Or.inr rfl
      · cases h; exact Or.inl rfl
    case unload e =>
      simp only [exec, call] at h
      split at h
      · cases h; exact Or.inr (Or.inr rfl)
      · cases h; exact Or.inr (Or.inl rfl)
      · cases h; exact Or.inl rfl
    all_goals cases h; rfl
  case enqueue e =>
    simp only [exec] at h
    split at h
    · split at h
      · cases h; exact Or.inl rfl
      · cases h; exact Or.inr rfl
    · cases h; exact Or.inr rfl
  case finishUnload e =>
    simp only [exec] at h
    split at h
    · cases h; exact Or.inl rfl
    · cases h; exact Or.inr rfl
  case nextSlice w =>
    simp only [exec] at h
    split at h
    · split at h
      · cases h; exact Or.inr (Or.inr rfl)
      · cases h; exact Or.inr (Or.inl rfl)
    · cases h; exact Or.inl rfl
  case seekWork w => cases h; exact afterTake_leads w t _
  case awaitWork w => cases h; exact afterTake_leads w t _
  case openSlice w e =>
    simp only [exec] at h
    split at h
    · cases h; exact Or.inl rfl
    · cases h; exact Or.inr rfl
  case noteAllocated w e =>
    simp only [exec] at h
    split at h
    · cases h; exact Or.inr ⟨_, rfl⟩
    · cases h; exact Or.inl rfl
  case work w e => cases h; exact Or.inr (Or.inl rfl)
  case sleep w deadline =>
    simp only [exec] at h
    split at h
    · cases h; exact Or.inl rfl
    · cases h; exact Or.inr rfl
  case doze w deadline =>
    simp only [exec] at h
    split at h
    · cases h; exact Or.inl rfl
    · cases h; exact Or.inr rfl
  case handle e result => cases h; exact handle_leads s e result
  case closeSlice w e before =>
    simp only [exec] at h
    split at h
    · split at h
      · cases h; exact Or.inr ⟨_, rfl⟩
      · cases h; exact Or.inl rfl
    · cases h; exact Or.inl rfl
  case resetTimer e slice =>
    cases h
    exact account_leads _ e _ slice
  case account e o =>
    simp only [exec] at h
    split at h
    · cases h
    · cases h; rfl
  case settle e =>
    simp only [exec] at h
    split at h
    · cases h; exact Or.inr rfl
    · cases h; exact Or.inl rfl
  case retire w =>
    simp only [exec] at h
    split at h
    · split at h
      · cases h; exact Or.inr rfl
      · cases h; exact Or.inl rfl
    · cases h; exact Or.inl rfl
  case takeAbandoned w =>
    simp only [exec] at h
    split at h
    · cases h; exact Or.inr ⟨_, rfl⟩
    · cases h; exact Or.inl rfl
  case decideRespawn w => cases h; exact ⟨_, rfl⟩
  case watch =>
    simp only [exec] at h
    split at h
    · cases h; exact Or.inl rfl
    · cases h; exact Or.inr rfl
  case beginWatch => cases h; exact ⟨_, rfl⟩
  case inspect =>
    cases h
    refine ⟨s.slots.filterMap id, ?_⟩
    rw [List.map_filterMap]
    rfl
  case checkWorker w =>
    simp only [exec] at h
    split at h
    · cases h; exact Or.inr ⟨_, rfl⟩
    · cases h; exact Or.inl rfl
  case measure w e =>
    simp only [exec] at h
    split at h
    · cases h; exact Or.inr ⟨_, rfl⟩
    · cases h; exact Or.inl rfl
  case raise w e overrun =>
    simp only [exec, raise] at h
    split at h
    · cases h; exact Or.inl rfl
    · cases h; exact Or.inr rfl
  case press w e overrun => cases h; exact press_leads s w e overrun
  case report w e overrun => cases h; exact beginReport_leads s w e overrun
  case collect timeout => cases h; exact ⟨_, by rw [List.map_map]; rfl⟩
  case beginStopWait timeout => cases h; exact ⟨_, rfl⟩
  case stopWait deadline timeout =>
    simp only [exec] at h
    split at h
    · cases h; exact Or.inr (Or.inl rfl)
    · split at h
      · cases h; exact Or.inl rfl
      · cases h; exact Or.inr (Or.inr rfl)
  all_goals cases h; rfl

/-! ## What changes -/

theorem books_pop (s : Pool n) (q : List (Entry n)) :
    ∃ (skipped : List (Entry n)) (faults : List (Event n)),
      (∀ x ∈ skipped, s.books.stage x.executor ≠ .queued) ∧
      ((∀ x ∈ skipped, s.books.stage x.executor = .done) → faults = []) ∧
      ((∃ head rest, q = skipped ++ head :: rest ∧ s.books.stage head.executor = .queued ∧
          (s.pop q).2 = some head.executor ∧
          (s.pop q).1.books = { s.books with queue := rest, faults := s.books.faults ++ faults }.setStage
            head.executor .running) ∨
        (q = skipped ∧ (s.pop q).2 = none ∧
          (s.pop q).1.books = { s.books with queue := [], faults := s.books.faults ++ faults })) := by
  induction q generalizing s with
  | nil =>
    refine ⟨[], [], by simp, fun _ => rfl, Or.inr ⟨rfl, rfl, ?_⟩⟩
    simp only [pop, List.append_nil]
    rfl
  | cons x q ih =>
    have hx : s.books.stage x.executor = (s.executor x.executor).stage := rfl
    cases hst : (s.executor x.executor).stage
    case queued =>
      refine ⟨[], [], by simp, fun _ => rfl, Or.inl ⟨x, q, rfl, by rw [hx, hst], ?_, ?_⟩⟩
      · simp only [pop, hst]
      · simp only [pop, hst, books_setStage, List.append_nil]
        rfl
    case done =>
      have hpop : s.pop (x :: q) = s.pop q := by simp only [pop, hst]
      obtain ⟨skipped, faults, hs, hf, hr⟩ := ih s
      rw [hpop]
      refine ⟨x :: skipped, faults, ?_, fun h => hf fun y hy => h y (List.mem_cons_of_mem _ hy), ?_⟩
      · intro y hy
        rcases List.mem_cons.1 hy with rfl | hy
        · rw [hx, hst]; decide
        · exact hs y hy
      · rcases hr with ⟨head, rest, hq, h⟩ | ⟨hq, h⟩
        · exact Or.inl ⟨head, rest, by rw [hq]; rfl, h⟩
        · exact Or.inr ⟨by rw [hq], h⟩
    all_goals
      have hpop : s.pop (x :: q) =
          (s.report (.notQueued (s.executor x.executor).host.computer (s.executor x.executor).stage)).pop q := by
        simp only [pop, hst]
      rw [hpop]
      generalize hs' : s.report (.notQueued (s.executor x.executor).host.computer
        (s.executor x.executor).stage) = s'
      have hb : s'.books = { s.books with faults := s.books.faults ++
          [.reported (.notQueued (s.executor x.executor).host.computer (s.executor x.executor).stage)] } := by
        rw [← hs', report, books_emit]
        simp [Event.mark?, Event.fate?, Event.isFault]
      have hstage : s'.books.stage = s.books.stage := by rw [hb]
      obtain ⟨skipped, faults, hs, hf, hr⟩ := ih s'
      rw [hstage] at hs hf hr
      refine ⟨x :: skipped, .reported (.notQueued (s.executor x.executor).host.computer
        (s.executor x.executor).stage) :: faults, ?_, fun h => ?_, ?_⟩
      · intro y hy
        rcases List.mem_cons.1 hy with rfl | hy
        · rw [hx, hst]; decide
        · exact hs y hy
      · have := h x (List.mem_cons_self ..)
        rw [hx, hst] at this
        cases this
      · rcases hr with ⟨head, rest, hq, h1, h2, h3⟩ | ⟨hq, h1, h2⟩
        · refine Or.inl ⟨head, rest, by rw [hq]; rfl, h1, h2, ?_⟩
          rw [h3, hb]
          simp
        · refine Or.inr ⟨by rw [hq], h1, ?_⟩
          rw [h2, hb]
          simp

/-- Only an observation that fails tears a thread down. -/
theorem exec_none (s : Pool n) (t : ThreadId) (i : Instr n) (h : (s.exec t i).2 = none) :
    (∃ e o, i = .account e o) ∧ (s.exec t i).1.books = s.books := by
  cases i
  case account e o => exact ⟨⟨e, o, rfl⟩, books_observe s e o⟩
  case call c => cases c <;> cases h
  all_goals
    simp only [exec] at h
    repeat' split at h
    all_goals cases h

theorem books_assign (s : Pool n) (e : Fin n) (w : WorkerId) :
    (s.assign e w).books = { s.books with running := s.books.running ++ [e] }.mark e .taken := by
  have hm : (s.modify e fun x => { x with chargedAt := s.now }).books = s.books :=
    books_modify s e (fun _ => rfl) (fun _ => rfl) fun _ => rfl
  have h : (s.assign e w).books =
      { ((s.modify e fun x => { x with chargedAt := s.now }).emit (.taken e w)).books with
        running := s.running ++ [e] } := rfl
  rw [h, books_emit_mark _ (e := e) (m := .taken) rfl rfl, hm]
  rfl

theorem books_take (s : Pool n) (w : WorkerId) :
    (∃ e, (s.take w).2 = .work e ∧ s.books.Takes (s.take w).1.books (some e)) ∨
    ((∀ e, (s.take w).2 ≠ .work e) ∧ s.books.Takes (s.take w).1.books none) := by
  obtain ⟨skipped, faults, hs, hf, hr⟩ := books_pop s s.queue
  unfold take
  generalize s.pop s.queue = r at hr
  obtain ⟨s', o⟩ := r
  rcases hr with ⟨head, rest, hq, hh, rfl, hb⟩ | ⟨hq, rfl, hb⟩
  · refine Or.inl ⟨head.executor, rfl, ?_⟩
    have hidle : { s' with idle := s'.idle - 1 }.books = s'.books := rfl
    simp only
    rw [books_assign, hidle, hb]
    exact .found skipped head rest faults hq hs hf hh
  · refine Or.inr ⟨?_, ?_⟩
    · intro e
      simp only
      split <;> simp
    · have hidle : { s' with idle := s'.idle - 1 }.books = s'.books := rfl
      have hn : s.books.Takes s'.books none := by
        rw [hb]
        exact .nothing faults (fun x hx => hs x (hq ▸ hx)) fun h => hf fun x hx => h x (by
          show x ∈ s.queue
          rw [hq]; exact hx)
      simp only
      split
      · rw [hidle]; exact hn
      · exact hn

/-- How a stay ends once everything is charged. -/
theorem books_sliceEnded (r : Pool n) (e : Fin n) (stage : Stage) :
    let ended := (r.setStage e stage.sliceEnded).emit (.settled e stage)
    (if stage = .repeating && ended.phase != .closed then (ended.push e).wakeWorker else ended).books =
      if stage = .repeating ∧ r.books.phase ≠ .closed then
        ((r.books.setStage e stage.sliceEnded).mark e .settled).push e r.nextArrival
      else (r.books.setStage e stage.sliceEnded).mark e .settled := by
  intro ended
  have hb : ended.books = (r.books.setStage e stage.sliceEnded).mark e .settled := by
    rw [books_emit_mark _ rfl rfl, books_setStage]
  have hphase : ended.phase = r.books.phase := rfl
  have harrival : ended.nextArrival = r.nextArrival := rfl
  by_cases h : stage = .repeating ∧ r.books.phase ≠ .closed
  · have hc : (stage = .repeating && ended.phase != .closed) = true := by simp [hphase, h]
    have hw : (ended.push e).wakeWorker.books = (ended.push e).books := rfl
    rw [if_pos hc, if_pos h, hw, books_push, hb, harrival]
  · have hc : ¬(stage = .repeating && ended.phase != .closed) = true := by simpa [hphase] using h
    rw [if_neg hc, if_neg h, hb]

theorem books_settle (s : Pool n) (e : Fin n) :
    s.books.Settles e (s.settle e).1.books ∧ (s.settle e).2 = s.books.stage e := by
  have hc := books_chargeAll { s with running := s.running.filter (· != e) } (some e)
  unfold settle
  generalize { s with running := s.running.filter (· != e) }.chargeAll (some e) = c at hc ⊢
  have hstage : (c.executor e).stage = s.books.stage e := by
    show c.books.stage e = _
    rw [hc.1]
    rfl
  have hphase : c.books.phase = s.books.phase := by
    rw [hc.1]
    rfl
  have hreport : (c.report (.impossibleStage (c.executor e).host.computer (c.executor e).stage)).books =
      { c.books with faults := c.books.faults ++
        [.reported (.impossibleStage (c.executor e).host.computer (c.executor e).stage)] } := by
    rw [report, books_emit]
    simp [Event.mark?, Event.fate?, Event.isFault]
  have hend : ∀ (r : Pool n) (faults : List (Event n)),
      r.books = { c.books with faults := c.books.faults ++ faults } →
      (s.books.stage e ≠ .idle → s.books.stage e ≠ .queued → faults = []) →
      let ended := (r.setStage e (c.executor e).stage.sliceEnded).emit (.settled e (c.executor e).stage)
      let result := if (c.executor e).stage = .repeating && ended.phase != .closed then
        ((ended.push e).wakeWorker, (c.executor e).stage) else (ended, (c.executor e).stage)
      s.books.Settles e result.1.books ∧ result.2 = s.books.stage e := by
    intro r faults hr hf ended result
    have hb := books_sliceEnded r e (s.books.stage e)
    have hrp : r.books.phase = s.books.phase := by rw [hr]; exact hphase
    rw [hrp] at hb
    refine ⟨⟨c.books, faults, r.nextArrival, hc, hf, ?_⟩, ?_⟩
    · rw [← hr, ← hb]
      simp only [result, ended, hstage]
      split <;> rfl
    · simp only [result]
      split <;> exact hstage
  simp only at hend ⊢
  split
  · exact hend _ _ hreport fun h => absurd (by rw [← hstage]; assumption) h
  · exact hend _ _ hreport fun _ h => absurd (by rw [← hstage]; assumption) h
  · exact hend c [] (by simp) fun _ _ => rfl

theorem books_enqueue (s : Pool n) (e : Fin n) {s' : Pool n} (h : s.enqueue e = .ok s') :
    (s.books.stage e = .done ∧ s' = s) ∨
    ∃ (hired c : Books n) (arrival : Nat), s.books.Hires hired ∧
      Books.Charged (hired.running ++ [e]) hired c ∧ s.books.phase = .running ∧
      s.books.stage e ≠ .done ∧ s'.books = c.push e arrival := by
  have hh := books_ensureRunning s
  have hc := books_chargeAll s.ensureRunning none
  unfold enqueue at h
  split at h
  · cases h
  · rename_i hphase
    split at h
    · rename_i hdone
      cases h
      exact Or.inl ⟨hdone, rfl⟩
    · rename_i hdone
      have hrunning : s.phase = .running := by simpa using hphase
      simp only at h
      generalize s.ensureRunning.chargeAll none = c at hc h
      have hm := books_modify_runtime c e (f := fun x =>
        { x with runtime := entryRuntime x.runtime c.minimum c.scaledPeriod c.config.basePeriod })
        (fun _ => rfl) fun _ => rfl
      generalize c.modify e _ = c' at hm h
      refine Or.inr ⟨_, c'.books, c'.nextArrival, hh, ?_, hrunning, hdone, ?_⟩
      · have hce := hc.trans hm
        rw [Option.toList_none, List.append_nil] at hce
        exact hce
      · have hw : ∀ s'' : Pool n, s''.wakeOneWatchdog.books = s''.books := fun _ => rfl
        have hw' : (c'.push e).wakeWorker.books = (c'.push e).books := rfl
        cases h
        rw [← books_push, ← hw']
        split
        · exact hw _
        · rfl

/-- An instruction that is quiet does nothing to the books. -/
theorem books_exec_quiet (s : Pool n) (t : ThreadId) {i : Instr n} (h : i.isQuiet = true) :
    (s.exec t i).1.books = s.books := by
  cases i
  case call c =>
    cases c
    case arm e budget => exact books_modifyTimeout s e (·.armClock budget s.clock)
    case hardAbort e =>
      exact (books_setAnswer _ t _).trans (books_modifyTimeout s e _)
    case startTimer e => exact books_modifyTimeout s e (·.startClock s.clock)
    case resetTimer e => exact books_modifyTimeout s e _
    case refresh e => exact books_refresh s e
    all_goals cases h
  case callHost e callback =>
    refine books_callHost_plain s e ?_
    rintro rfl
    cases h
  case startWorker w => exact books_modifyWorker_keep s w (fun _ => rfl) fun _ => rfl
  case clearInterrupt w => exact books_modifyWorker_keep s w (fun _ => rfl) fun _ => rfl
  case nextSlice w =>
    simp only [exec]
    split <;> rfl
  case noteAllocated w e =>
    simp only [exec]
    split <;> rfl
  case callWork w e => exact books_emit_plain s rfl rfl
  case sleep w deadline =>
    simp only [exec]
    split
    · exact books_setAnswer s t _
    · rfl
  case doze w deadline =>
    simp only [exec]
    split
    · exact books_setAnswer s t _
    · rfl
  case observe e o => exact books_observe s e o
  case handle e result => exact books_handle s e result
  case resetTimer e slice =>
    exact (books_emit_plain _ rfl rfl).trans (books_modifyTimeout s e _)
  case account e o => exact books_observe s e o
  case warnAllocation e before after => exact books_emit_plain s rfl rfl
  case raise w e overrun => exact books_raise s w e overrun
  case press w e overrun => exact books_press s w e overrun
  case report w e overrun => exact books_beginReport s w e overrun
  case writeReport e overrun thread => exact books_writeReport s e overrun thread
  case stopWait deadline timeout =>
    simp only [exec]
    split
    · rfl
    · split
      · exact (books_setAnswer _ t _).trans (books_emit_plain s rfl rfl)
      · rfl
  case wakeWatchdog => exact books_setAnswer _ t _
  all_goals first | rfl | cases h

theorem exec_submit (s : Pool n) (t : ThreadId) (e : Fin n) {next : List (Instr n)}
    (h : (s.exec t (.call (.submit e))).2 = some next) :
    (Instr.call (.submit e)).Effect s.books (s.exec t (.call (.submit e))).1.books next := by
  simp only [exec, call] at h ⊢
  by_cases hi : (s.executor e).stage = .idle
  · rw [if_pos hi] at h ⊢
    cases h
    refine Or.inl ⟨hi, ?_, rfl⟩
    show (s.setStage e _).books = _
    rw [books_setStage, hi]
    rfl
  · rw [if_neg hi] at h ⊢
    cases h
    refine Or.inr ⟨hi, ?_, rfl⟩
    show (((s.setStage e _).emit _).setAnswer t _).books = _
    rw [books_setAnswer, books_emit_mark _ (e := e) (m := .accepted) rfl rfl, books_setStage]
    rfl

theorem exec_enqueue (s : Pool n) (t : ThreadId) (e : Fin n) {next : List (Instr n)}
    (h : (s.exec t (.enqueue e)).2 = some next) :
    (Instr.enqueue e).Effect s.books (s.exec t (.enqueue e)).1.books next := by
  simp only [exec] at h ⊢
  split at h
  · rename_i hr
    rw [if_pos hr]
    split at h
    · rename_i s' hs'
      cases h
      have hb : ((s'.emit (.submitted e (.ok ()))).setAnswer t (.result (.ok ()))).books =
          s'.books.mark e .accepted := by
        rw [books_setAnswer, books_emit_mark _ (e := e) (m := .accepted) rfl rfl]
      simp only [hb]
      rcases books_enqueue s e hs' with ⟨hd, rfl⟩ | ⟨hired, c, arrival, hh, hc, hp, hd, hq⟩
      · exact Or.inr (Or.inl ⟨hd, rfl, rfl⟩)
      · exact Or.inr (Or.inr ⟨⟨hired, c, arrival, hh, hc, hp, hd, by rw [hq]⟩, rfl⟩)
    · cases h
      exact Or.inl ⟨rfl, rfl⟩
  · rename_i hr
    rw [if_neg hr]
    cases h
    exact Or.inl ⟨rfl, rfl⟩

theorem exec_withdraw (s : Pool n) (t : ThreadId) (e : Fin n) :
    (s.exec t (.withdraw e)).1.books =
      (if s.books.stage e = .queued then s.books.setStage e .idle else s.books).mark e .refused := by
  simp only [exec]
  rw [books_setAnswer, books_emit_mark _ (e := e) (m := .refused) rfl rfl]
  by_cases h : (s.executor e).stage = .queued
  · have hb : s.books.stage e = .queued := h
    rw [if_pos h, books_setStage, if_pos hb]
  · have hb : ¬s.books.stage e = .queued := h
    rw [if_neg h, if_neg hb]

theorem exec_finishUnload (s : Pool n) (t : ThreadId) (e : Fin n) {next : List (Instr n)}
    (h : (s.exec t (.finishUnload e)).2 = some next) :
    (Instr.finishUnload e).Effect s.books (s.exec t (.finishUnload e)).1.books next := by
  simp only [exec] at h ⊢
  cases hu : (s.executor e).unloaded
  · simp only [hu, Bool.false_eq_true, if_false] at h ⊢
    cases h
    refine Or.inr ⟨hu, ?_, rfl⟩
    rw [report, books_emit_plain _ rfl rfl, books_setUnloaded]
  · simp only [hu, if_true] at h ⊢
    cases h
    exact Or.inl ⟨hu, rfl, rfl⟩

theorem exec_take (s : Pool n) (w : WorkerId) (t : ThreadId) :
    (∃ e, s.books.Takes (afterTake w t (s.take w)).1.books (some e) ∧
      (afterTake w t (s.take w)).2 = [.openSlice w e]) ∨
    (s.books.Takes (afterTake w t (s.take w)).1.books none ∧
      ((afterTake w t (s.take w)).2 = [.retire w] ∨ (afterTake w t (s.take w)).2 = [.awaitWork w])) := by
  have h := books_take s w
  generalize s.take w = r at h ⊢
  obtain ⟨s', found⟩ := r
  rcases h with ⟨e, he, hb⟩ | ⟨hne, hb⟩
  · cases he
    exact Or.inl ⟨e, hb, rfl⟩
  · cases found with
    | work e => exact absurd rfl (hne e)
    | «over» => exact Or.inr ⟨hb, Or.inl rfl⟩
    | nothing => exact Or.inr ⟨hb, Or.inr rfl⟩

theorem exec_closeSlice (s : Pool n) (t : ThreadId) (w : WorkerId) (e : Fin n) (before : UInt64)
    {next : List (Instr n)} (h : (s.exec t (.closeSlice w e before)).2 = some next) :
    (Instr.closeSlice w e before).Effect s.books (s.exec t (.closeSlice w e before)).1.books next := by
  simp only [exec] at h ⊢
  cases hw : s.workers[w]? with
  | none =>
    simp only [hw] at h ⊢
    cases h
    have hc : s.books.current[w]? = none := by simp [books, hw]
    refine ⟨?_, Or.inr ⟨by simp [hc], rfl⟩⟩
    rw [List.set_eq_of_length_le (by simpa using hc)]
  | some worker =>
    simp only [hw] at h ⊢
    have hc : s.books.current[w]? = some worker.current := by simp [books, hw]
    refine ⟨books_setCurrent s w none, ?_⟩
    cases hcur : worker.current with
    | none =>
      simp only [hcur] at h hc
      cases h
      exact Or.inr ⟨by simp [hc], rfl⟩
    | some e' =>
      simp only [hcur] at h hc
      cases h
      exact Or.inl ⟨e', _, hc, rfl⟩

theorem exec_takeAbandoned (s : Pool n) (t : ThreadId) (w : WorkerId) {next : List (Instr n)}
    (h : (s.exec t (.takeAbandoned w)).2 = some next) :
    (Instr.takeAbandoned w).Effect s.books (s.exec t (.takeAbandoned w)).1.books next := by
  simp only [exec] at h ⊢
  refine ⟨books_setCurrent s w none, ?_⟩
  cases hc : s.current? w with
  | none =>
    simp only [hc] at h
    cases h
    exact Or.inr ⟨fun e => by simp [current_eq, hc], rfl⟩
  | some e =>
    simp only [hc] at h
    cases h
    exact Or.inl ⟨e, (current_eq s w e).2 hc, rfl⟩

theorem exec_settle (s : Pool n) (t : ThreadId) (e : Fin n) {next : List (Instr n)}
    (h : (s.exec t (.settle e)).2 = some next) :
    (Instr.settle e).Effect s.books (s.exec t (.settle e)).1.books next := by
  have hb := books_settle s e
  simp only [exec] at h ⊢
  generalize s.settle e = r at hb h ⊢
  obtain ⟨s', stage⟩ := r
  obtain ⟨hb, rfl⟩ := hb
  generalize hst : s.books.stage e = stage at h ⊢
  cases stage <;> cases h <;> exact ⟨hb, by rw [hst]; rfl⟩

theorem exec_retire (s : Pool n) (t : ThreadId) (w : WorkerId) {next : List (Instr n)}
    (h : (s.exec t (.retire w)).2 = some next) :
    (Instr.retire w).Effect s.books (s.exec t (.retire w)).1.books next := by
  simp only [exec] at h ⊢
  cases hw : s.workers[w]? with
  | none =>
    simp only [hw] at h ⊢
    cases h
    have hl : s.books.live[w]? = none := by simp [books, hw]
    exact Or.inr ⟨by simp [hl], rfl, rfl⟩
  | some worker =>
    have hl : s.books.live[w]? = some worker.live := by simp [books, hw]
    cases hlive : worker.live with
    | true =>
      simp only [hw, hlive, if_true] at h hl ⊢
      cases h
      exact Or.inl ⟨hl, (books_emit_plain _ rfl rfl).trans (books_setLive s w false), rfl⟩
    | false =>
      simp only [hw, hlive, Bool.false_eq_true, if_false] at h hl ⊢
      cases h
      exact Or.inr ⟨by simp [hl], rfl, rfl⟩

/-- What an instruction does to the books. -/
theorem exec_effect (s : Pool n) (t : ThreadId) (i : Instr n) {next : List (Instr n)}
    (h : (s.exec t i).2 = some next) : i.Effect s.books (s.exec t i).1.books next := by
  have hq : i.isQuiet = true → (s.exec t i).1.books = s.books := books_exec_quiet s t
  cases i
  case call c =>
    cases c
    case submit e => exact exec_submit s t e h
    case unload e => cases h; exact ⟨books_setStage s e .done, rfl⟩
    case stop timeout => cases h; exact ⟨rfl, rfl⟩
    all_goals exact hq rfl
  case enqueue e => exact exec_enqueue s t e h
  case withdraw e => cases h; exact ⟨exec_withdraw s t e, rfl⟩
  case dequeue e => cases h; exact ⟨rfl, rfl⟩
  case finishUnload e => exact exec_finishUnload s t e h
  case callHost e callback =>
    cases callback
    case unload =>
      cases h
      exact ⟨(books_callHost s e .unload).trans (books_emit_mark s rfl rfl), rfl⟩
    all_goals exact hq rfl
  case announce e =>
    cases h
    exact ⟨(books_announce s e).trans (books_emit_mark s rfl rfl), rfl⟩
  case seekWork w =>
    cases h
    exact exec_take { s with idle := s.idle + 1 } w t
  case awaitWork w => cases h; exact exec_take s w t
  case publish w e allocated => cases h; exact ⟨books_setCurrent s w (some e), rfl⟩
  case closeSlice w e before => exact exec_closeSlice s t w e before h
  case settle e => exact exec_settle s t e h
  case retire w => exact exec_retire s t w h
  case takeAbandoned w => exact exec_takeAbandoned s t w h
  case vacate w respawn => cases h; exact ⟨books_vacate s w respawn, rfl⟩
  case close => cases h; exact ⟨rfl, rfl⟩
  all_goals exact hq rfl

end Pool

end FairShare.Scheduler

import FairShare.Proofs.Gear
import FairShare.Proofs.Ledger

/-!
# What drives a pool

`Instr.Drive` says what each instruction does to the gear, and what comes next where that depends on more than
`Instr.Leads` tells. `Goes` puts it together with the effect on the books, action by action, and `Pool.run_along` is
the induction over those runs whose every action is of some kind.
-/

namespace FairShare.Scheduler

variable {n : Nat}

/-! ## Instructions -/

namespace Instr

/-- What an idle worker that looks for an executor does to the gear. -/
def Seeks (w : WorkerId) (b : Books n) (g g' : Gear n) (next : List (Instr n)) : Prop :=
  (∃ e, next = [.openSlice w e] ∧ g' = { g with idle := g.idle - 1 }.deed (.taken e w)) ∨
  (b.phase ≠ .running ∧ next = [.retire w] ∧ g' = { g with idle := g.idle - 1 }) ∨
  (b.phase = .running ∧ next = [.awaitWork w] ∧ g' = g)

/-- What an instruction does to the gear, together with the instructions that come next. -/
def Drive (b b' : Books n) (g g' : Gear n) (next : List (Instr n)) : Instr n → Prop
  | .call (.refresh e) => ∃ share : Share, g' = g.onTimeout e (·.refresh share g.clock) ∧
    (share.contended = true →
      b.queue ≠ [] ∧ share.period = g.period (b.running.length + b.queue.length))
  | .call (.arm e budget) => g' = g.onTimeout e (·.armClock budget g.clock)
  | .call (.hardAbort e) => g' = g.onTimeout e (·.hardAbort)
  | .call (.startTimer e) => g' = g.onTimeout e (·.startClock g.clock)
  | .call (.resetTimer e) => g' = g.onTimeout e (·.reset)
  | .enqueue _ =>
    (g' = g ∧ b'.live = b.live ∧
      (b'.queue = b.queue ∨ 0 < g.idle ∨ g.workerCount = g.slots.length ∨ none ∉ g.slots)) ∨
    (b.phase = .running ∧
      ∃ slot, g.slots[slot]? = some none ∧ g' = g.hire slot ∧ b'.live = b.live ++ [true])
  | .callHost e callback => g' = g.deed (.called e callback)
  | .startWorker w => g' = { g with started := g.started.set w true }
  | .nextSlice w => g' = g ∧
    ((b.live[w]? = some true ∧ next = [.seekWork w, .nextSlice w]) ∨
      (b.live[w]? = some false ∧ next = [.retire w]) ∨ (b.live[w]? = none ∧ next = []))
  | .seekWork w => Seeks w b { g with idle := g.idle + 1 } g' next
  | .awaitWork w => Seeks w b g g' next
  | .openSlice w e => g' = g ∧
    ((b.phase = .running ∧ next = [.clearInterrupt w, .call (.startTimer e), .noteAllocated w e]) ∨
      (b.phase ≠ .running ∧ next = [.call (.unload e), .resetTimer e .never]))
  | .clearInterrupt w => g' = { g with interrupted := g.interrupted.set w false }
  | .callWork w e => g' = g.deed (.workBegan e w)
  | .resetTimer e slice => (∃ elapsed, g' = (g.onTimeout e (·.reset)).deed (.timerReset e elapsed)) ∧
    (slice = .never → next = [.settle e]) ∧ (slice = .abandoned → ∃ o, next = [.account e o, .settle e])
  | .retire w =>
    (b.live[w]? = some true ∧ g' = g.deed (.retired w)) ∨ (b.live[w]? ≠ some true ∧ g' = g)
  | .decideRespawn w => g' = g ∧ ∃ respawn, next = [.vacate w respawn] ∧
    (respawn = true ↔ b.phase = .running ∨ b.phase = .stopping ∧ b.queue ≠ [])
  | .vacate w respawn =>
    ((g.seats[w]? = none ∧ g' = g) ∨
      (∃ slot, g.seats[w]? = some slot ∧ g.slots[slot]? ≠ some (some w) ∧ g' = g.discount) ∨
      (∃ slot, g.seats[w]? = some slot ∧ g.slots[slot]? = some (some w) ∧ respawn = false ∧
        g' = g.leave slot)) ∧ b'.live = b.live ∨
    ∃ slot, g.seats[w]? = some slot ∧ g.slots[slot]? = some (some w) ∧ respawn = true ∧
      g' = (g.leave slot).hire slot ∧ b'.live = b.live ++ [true]
  | .inspect => g' = g ∧ next = g.slots.filterMap fun slot => slot.map .checkWorker
  | .checkWorker w => g' = g ∧
    ((∃ e, b.current[w]? = some (some e) ∧ next = [.call (.refresh e), .measure w e]) ∨
      ((∀ e, b.current[w]? ≠ some (some e)) ∧ next = []))
  | .measure w e => g' = g ∧
    next = if g.config.timeouts.abortTimeout.nanos ≤ ((g.timeout e).overrun g.clock).nanos then
      [.raise w e ((g.timeout e).overrun g.clock)] else []
  | .raise w e overrun => g' = g.onTimeout e (·.hardAbort) ∧
    next = if (g.timeout e).flags.hardAborted then [.press w e overrun]
      else [.callHost e .abortWithTimeout, .press w e overrun]
  | .press w e overrun =>
    let step := g.config.timeouts.abortTimeout.nanos
    if step ≤ overrun.nanos - step ∧ b.current[w]? = some (some e) then
      g' = (g.interrupt w).deed (.interrupted w) ∧
      next = .report w e overrun :: if 2 * step ≤ overrun.nanos - step then [.retire w] else []
    else g' = g ∧ next = []
  | .writeReport e _ _ => g' = g.deed (.called e .writeState)
  | .stopWait deadline timeout =>
    (g.workerCount = 0 ∧ g' = g ∧ next = [.close]) ∨
    (0 < g.workerCount ∧ deadline ≤ g.clock ∧ g' = g ∧ next = []) ∨
    (0 < g.workerCount ∧ ∃ waiters, g' = { g with stopWaiters := waiters } ∧
      next = [.stopWait deadline timeout])
  | _ => g' = g

/-- What an instruction adds to the deeds. -/
def Deeds (deeds : List (Event n)) : Instr n → Prop
  | .callHost e callback => deeds = [.called e callback]
  | .callWork w e => deeds = [.workBegan e w]
  | .writeReport e _ _ => deeds = [.called e .writeState]
  | .resetTimer e _ => ∃ elapsed, deeds = [.timerReset e elapsed]
  | .retire w => deeds = [] ∨ deeds = [.retired w]
  | .press w _ _ => deeds = [] ∨ deeds = [.interrupted w]
  | .seekWork w | .awaitWork w => deeds = [] ∨ ∃ e, deeds = [.taken e w]
  | _ => deeds = []

variable {b b' : Books n} {g g' : Gear n} {next : List (Instr n)}

theorem Seeks.deeds {w : WorkerId} (h : Seeks w b g g' next) :
    ∃ deeds, g'.deeds = g.deeds ++ deeds ∧ (deeds = [] ∨ ∃ e, deeds = [.taken e w]) := by
  rcases h with ⟨e, -, rfl⟩ | ⟨-, -, rfl⟩ | ⟨-, -, rfl⟩
  · exact ⟨_, rfl, Or.inr ⟨e, rfl⟩⟩
  · exact ⟨[], (List.append_nil _).symm, Or.inl rfl⟩
  · exact ⟨[], (List.append_nil _).symm, Or.inl rfl⟩

theorem Drive.deeds {i : Instr n} (hd : i.Drive b b' g g' next) :
    ∃ deeds, g'.deeds = g.deeds ++ deeds ∧ i.Deeds deeds := by
  have hnone : g'.deeds = g.deeds → ∃ deeds, g'.deeds = g.deeds ++ deeds ∧ deeds = [] := fun h => ⟨[], by simp [h], rfl⟩
  cases i
  case call c =>
    cases c
    case refresh e => obtain ⟨share, rfl, -⟩ := hd; exact hnone rfl
    all_goals cases hd; exact hnone rfl
  case enqueue e => rcases hd with ⟨rfl, -⟩ | ⟨-, slot, -, rfl, -⟩ <;> exact hnone rfl
  case callHost e callback => cases hd; exact ⟨_, rfl, rfl⟩
  case nextSlice w => obtain ⟨rfl, -⟩ := hd; exact hnone rfl
  case seekWork w => exact Seeks.deeds (g := { g with idle := g.idle + 1 }) hd
  case awaitWork w => exact Seeks.deeds hd
  case openSlice w e => obtain ⟨rfl, -⟩ := hd; exact hnone rfl
  case callWork w e => cases hd; exact ⟨_, rfl, rfl⟩
  case resetTimer e slice => obtain ⟨⟨elapsed, rfl⟩, -⟩ := hd; exact ⟨_, rfl, elapsed, rfl⟩
  case retire w =>
    rcases hd with ⟨-, rfl⟩ | ⟨-, rfl⟩
    · exact ⟨_, rfl, Or.inr rfl⟩
    · exact ⟨[], (List.append_nil _).symm, Or.inl rfl⟩
  case decideRespawn w => obtain ⟨rfl, -⟩ := hd; exact hnone rfl
  case vacate w respawn =>
    rcases hd with ⟨⟨-, rfl⟩ | ⟨slot, -, -, rfl⟩ | ⟨slot, -, -, -, rfl⟩, -⟩ | ⟨slot, -, -, -, rfl, -⟩ <;> exact hnone rfl
  case inspect => obtain ⟨rfl, -⟩ := hd; exact hnone rfl
  case checkWorker w => obtain ⟨rfl, -⟩ := hd; exact hnone rfl
  case measure w e => obtain ⟨rfl, -⟩ := hd; exact hnone rfl
  case raise w e overrun => obtain ⟨rfl, -⟩ := hd; exact hnone rfl
  case press w e overrun =>
    simp only [Drive] at hd
    split at hd
    · obtain ⟨rfl, -⟩ := hd
      exact ⟨_, rfl, Or.inr rfl⟩
    · obtain ⟨rfl, -⟩ := hd
      exact ⟨[], (List.append_nil _).symm, Or.inl rfl⟩
  case writeReport e overrun thread => cases hd; exact ⟨_, rfl, rfl⟩
  case stopWait deadline timeout =>
    rcases hd with ⟨-, rfl, -⟩ | ⟨-, -, rfl, -⟩ | ⟨-, waiters, rfl, -⟩ <;> exact hnone rfl
  all_goals cases hd; exact hnone rfl

/-- What an instruction makes of the timeout of an executor. -/
inductive Retimes (b : Books n) (g : Gear n) (e : Fin n) : Instr n → TimeoutState → Prop where
  /-- Nothing. -/
  | keep (i : Instr n) : Retimes b g e i (g.timeout e)
  /-- It is compared with a share. -/
  | refresh (share : Share) (h : share.contended = true →
      b.queue ≠ [] ∧ share.period = g.period (b.running.length + b.queue.length)) :
      Retimes b g e (.call (.refresh e)) ((g.timeout e).refresh share g.clock)
  /-- A budget is armed. -/
  | arm (budget : Duration) : Retimes b g e (.call (.arm e budget)) ((g.timeout e).armClock budget g.clock)
  /-- Somebody raises the hard abort. -/
  | hardAbort : Retimes b g e (.call (.hardAbort e)) (g.timeout e).hardAbort
  /-- The watchdog raises the hard abort. -/
  | raise (w : WorkerId) (overrun : Duration) : Retimes b g e (.raise w e overrun) (g.timeout e).hardAbort
  /-- Its clock is started. -/
  | start : Retimes b g e (.call (.startTimer e)) ((g.timeout e).startClock g.clock)
  /-- Somebody resets it. -/
  | clear : Retimes b g e (.call (.resetTimer e)) (g.timeout e).reset
  /-- It is reset at the end of a slice. -/
  | reset (slice : SliceRecord) : Retimes b g e (.resetTimer e slice) (g.timeout e).reset

theorem Seeks.timeout {w : WorkerId} (h : Seeks w b g g' next) : g'.timeout = g.timeout := by
  rcases h with ⟨e, -, rfl⟩ | ⟨-, -, rfl⟩ | ⟨-, -, rfl⟩ <;> rfl

theorem Drive.timeout {i : Instr n} (hd : i.Drive b b' g g' next) (e : Fin n) : Retimes b g e i (g'.timeout e) := by
  have hkeep : g'.timeout = g.timeout → Retimes b g e i (g'.timeout e) := fun h => h ▸ .keep i
  have hon : ∀ (e' : Fin n) (f : TimeoutState → TimeoutState) (h : Gear n), h.timeout = (g.onTimeout e' f).timeout →
      (e = e' → Retimes b g e i (f (g.timeout e))) → Retimes b g e i (h.timeout e) := by
    intro e' f h ht hr
    rw [ht]
    by_cases he : e = e'
    · subst he
      have hs : (g.onTimeout e f).timeout e = f (g.timeout e) := if_pos rfl
      rw [hs]
      exact hr rfl
    · have hs : (g.onTimeout e' f).timeout e = g.timeout e := if_neg he
      rw [hs]
      exact .keep i
  cases i
  case call c =>
    cases c
    case refresh e' =>
      obtain ⟨share, rfl, hshare⟩ := hd
      exact hon e' _ _ rfl fun he => he ▸ .refresh share hshare
    case arm e' budget => cases hd; exact hon e' _ _ rfl fun he => he ▸ .arm budget
    case hardAbort e' => cases hd; exact hon e' _ _ rfl fun he => he ▸ .hardAbort
    case startTimer e' => cases hd; exact hon e' _ _ rfl fun he => he ▸ .start
    case resetTimer e' => cases hd; exact hon e' _ _ rfl fun he => he ▸ .clear
    all_goals cases hd; exact hkeep rfl
  case enqueue e' => rcases hd with ⟨rfl, -⟩ | ⟨-, slot, -, rfl, -⟩ <;> exact hkeep rfl
  case nextSlice w => obtain ⟨rfl, -⟩ := hd; exact hkeep rfl
  case seekWork w => exact hkeep (Seeks.timeout (g := { g with idle := g.idle + 1 }) hd)
  case awaitWork w => exact hkeep (Seeks.timeout hd)
  case openSlice w e' => obtain ⟨rfl, -⟩ := hd; exact hkeep rfl
  case resetTimer e' slice =>
    obtain ⟨⟨elapsed, rfl⟩, -⟩ := hd
    exact hon e' _ _ rfl fun he => he ▸ .reset slice
  case retire w => rcases hd with ⟨-, rfl⟩ | ⟨-, rfl⟩ <;> exact hkeep rfl
  case decideRespawn w => obtain ⟨rfl, -⟩ := hd; exact hkeep rfl
  case vacate w respawn =>
    rcases hd with ⟨⟨-, rfl⟩ | ⟨slot, -, -, rfl⟩ | ⟨slot, -, -, -, rfl⟩, -⟩ | ⟨slot, -, -, -, rfl, -⟩ <;> exact hkeep rfl
  case inspect => obtain ⟨rfl, -⟩ := hd; exact hkeep rfl
  case checkWorker w => obtain ⟨rfl, -⟩ := hd; exact hkeep rfl
  case measure w e' => obtain ⟨rfl, -⟩ := hd; exact hkeep rfl
  case raise w e' overrun =>
    obtain ⟨rfl, -⟩ := hd
    exact hon e' _ _ rfl fun he => he ▸ .raise w overrun
  case press w e' overrun =>
    simp only [Drive] at hd
    split at hd <;> obtain ⟨rfl, -⟩ := hd <;> exact hkeep rfl
  case stopWait deadline timeout =>
    rcases hd with ⟨-, rfl, -⟩ | ⟨-, -, rfl, -⟩ | ⟨-, waiters, rfl, -⟩ <;> exact hkeep rfl
  all_goals cases hd; exact hkeep rfl

end Instr

namespace Pool

theorem share_contended (s : Pool n) (h : s.share.contended = true) :
    s.books.queue ≠ [] ∧ s.share.period = s.gear.period (s.books.running.length + s.books.queue.length) := by
  unfold share at h ⊢
  split at h
  · rename_i hr
    rw [if_pos hr]
    refine ⟨?_, rfl⟩
    show s.queue ≠ []
    simpa using h
  · cases h

theorem drive_seeks (s : Pool n) (w : WorkerId) (t : ThreadId) :
    Instr.Seeks w s.books s.gear (afterTake w t (s.take w)).1.gear (afterTake w t (s.take w)).2 := by
  have h := gear_take s w
  generalize s.take w = r at h ⊢
  obtain ⟨s', found⟩ := r
  cases found with
  | work e => exact Or.inl ⟨e, rfl, h⟩
  | «over» => exact Or.inr (Or.inl ⟨h.1, rfl, h.2⟩)
  | nothing => exact Or.inr (Or.inr ⟨h.1, rfl, h.2⟩)

theorem drive_enqueue (s : Pool n) (t : ThreadId) (e : Fin n) (next : List (Instr n)) :
    (Instr.enqueue e).Drive s.books (s.exec t (.enqueue e)).1.books s.gear (s.exec t (.enqueue e)).1.gear next := by
  simp only [exec]
  split
  · split
    · rename_i s' hs'
      have hq : ∀ r : Pool n, ((r.emit (.submitted e (.ok ()))).setAnswer t (.result (.ok ()))).gear = r.gear ∧
          ((r.emit (.submitted e (.ok ()))).setAnswer t (.result (.ok ()))).books.live = r.books.live ∧
          ((r.emit (.submitted e (.ok ()))).setAnswer t (.result (.ok ()))).books.queue = r.queue := by
        intro r
        refine ⟨gear_emit_plain r rfl, ?_, rfl⟩
        rw [books_setAnswer]
        rfl
      obtain ⟨hg, hl, hqueue⟩ := hq s'
      unfold Instr.Drive
      simp only [hg, hl, hqueue]
      rcases gear_enqueue s e hs' with h | ⟨slot, hslot, h⟩
      · exact Or.inl h
      · refine Or.inr ⟨?_, slot, hslot, h⟩
        -- A worker is hired for an executor that enters the run queue, so the scheduler runs.
        rcases books_enqueue s e hs' with ⟨-, rfl⟩ | ⟨-, -, -, -, -, hp, -⟩
        · have := congrArg (fun g => g.workerCount) h.1
          simp [Gear.hire] at this
        · exact hp
    · exact Or.inl ⟨rfl, rfl, Or.inl rfl⟩
  · exact Or.inl ⟨rfl, rfl, Or.inl rfl⟩

theorem drive_nextSlice (s : Pool n) (t : ThreadId) (w : WorkerId) {next : List (Instr n)}
    (h : (s.exec t (.nextSlice w)).2 = some next) :
    (Instr.nextSlice w).Drive s.books (s.exec t (.nextSlice w)).1.books s.gear
      (s.exec t (.nextSlice w)).1.gear next := by
  simp only [exec] at h ⊢
  cases hw : s.workers[w]? with
  | none =>
    simp only [hw] at h ⊢
    cases h
    exact ⟨rfl, Or.inr (Or.inr ⟨by simp [books, hw], rfl⟩)⟩
  | some worker =>
    have hl : s.books.live[w]? = some worker.live := by simp [books, hw]
    simp only [hw] at h ⊢
    cases hlive : worker.live <;> simp only [hlive] at h hl <;> cases h
    · exact ⟨rfl, Or.inr (Or.inl ⟨hl, rfl⟩)⟩
    · exact ⟨rfl, Or.inl ⟨hl, rfl⟩⟩

theorem drive_retire (s : Pool n) (t : ThreadId) (w : WorkerId) (next : List (Instr n)) :
    (Instr.retire w).Drive s.books (s.exec t (.retire w)).1.books s.gear (s.exec t (.retire w)).1.gear next := by
  simp only [exec]
  cases hw : s.workers[w]? with
  | none => exact Or.inr ⟨by simp [books, hw], rfl⟩
  | some worker =>
    have hl : s.books.live[w]? = some worker.live := by simp [books, hw]
    cases hlive : worker.live with
    | true =>
      simp only [hlive, if_true]
      have hm : (s.modifyWorker w fun worker => { worker with live := false }).gear = s.gear :=
        gear_modifyWorker s w (fun _ => rfl) (fun _ => rfl) fun _ => rfl
      refine Or.inl ⟨by rw [hl, hlive], ?_⟩
      rw [gear_emit_deed _ rfl, hm]
    | false =>
      simp only [hlive]
      exact Or.inr ⟨by simp [hl, hlive], rfl⟩

theorem drive_stopWait (s : Pool n) (t : ThreadId) (deadline : Instant) (timeout : Duration) {next : List (Instr n)}
    (h : (s.exec t (.stopWait deadline timeout)).2 = some next) :
    (Instr.stopWait deadline timeout).Drive s.books (s.exec t (.stopWait deadline timeout)).1.books s.gear
      (s.exec t (.stopWait deadline timeout)).1.gear next := by
  simp only [exec] at h ⊢
  by_cases hz : s.workerCount = 0
  · simp only [hz, if_true] at h ⊢
    cases h
    exact Or.inl ⟨hz, rfl, rfl⟩
  · have hpos : 0 < s.gear.workerCount := Nat.pos_of_ne_zero hz
    by_cases hd : deadline ≤ s.clock
    · simp only [hz, hd, if_true, if_false] at h ⊢
      cases h
      exact Or.inr (Or.inl ⟨hpos, hd, gear_report s _, rfl⟩)
    · simp only [hz, hd, if_false] at h ⊢
      cases h
      exact Or.inr (Or.inr ⟨hpos, _, rfl, rfl⟩)

/-- What an instruction does to the gear. -/
theorem exec_drive (s : Pool n) (t : ThreadId) (i : Instr n) {next : List (Instr n)}
    (h : (s.exec t i).2 = some next) :
    i.Drive s.books (s.exec t i).1.books s.gear (s.exec t i).1.gear next := by
  cases i
  case call c =>
    cases c
    case submit e =>
      simp only [exec, call]
      split
      · exact gear_setStage s e _
      · exact (gear_emit_plain _ rfl).trans (gear_setStage s e _)
    case unload e => exact gear_setStage s e .done
    case refresh e => exact ⟨s.share, gear_refresh s e, share_contended s⟩
    case arm e budget => exact gear_modifyTimeout s e (·.armClock budget s.clock)
    case hardAbort e => exact gear_modifyTimeout s e (·.hardAbort)
    case startTimer e => exact gear_modifyTimeout s e (·.startClock s.clock)
    case resetTimer e => exact gear_modifyTimeout s e (·.reset)
    case stop timeout => rfl
  case enqueue e => exact drive_enqueue s t e next
  case withdraw e =>
    have hr : ∀ r : Pool n, (r.emit (.submitted e (.error .notRunning))).gear = r.gear :=
      fun r => gear_emit_plain r rfl
    show ((Pool.emit _ _).setAnswer t _).gear = s.gear
    rw [gear_setAnswer, hr]
    split
    · exact gear_setStage s e .idle
    · rfl
  case finishUnload e =>
    simp only [exec]
    split
    · rfl
    · exact (gear_report _ _).trans (gear_modify s e (fun _ => rfl) fun _ => rfl)
  case announce e => exact gear_announce s e
  case callHost e callback => exact gear_callHost s e callback
  case startWorker w => exact gear_setStarted s w
  case nextSlice w => exact drive_nextSlice s t w h
  case seekWork w => cases h; exact drive_seeks { s with idle := s.idle + 1 } w t
  case awaitWork w => cases h; exact drive_seeks s w t
  case openSlice w e =>
    cases h
    refine ⟨rfl, ?_⟩
    by_cases hp : s.phase = .running
    · exact Or.inl ⟨hp, by simp [hp, Phase.isStopping]⟩
    · exact Or.inr ⟨hp, by simp [hp, Phase.isStopping]⟩
  case clearInterrupt w => exact gear_clearInterrupted s w
  case noteAllocated w e =>
    simp only [exec]
    split <;> rfl
  case publish w e allocated => exact gear_modifyWorker s w (fun _ => rfl) (fun _ => rfl) fun _ => rfl
  case callWork w e => exact gear_emit_deed s rfl
  case sleep w deadline =>
    simp only [exec]
    split <;> rfl
  case doze w deadline =>
    simp only [exec]
    split <;> rfl
  case observe e o => exact gear_observe s e o
  case handle e result => exact gear_handle s e result
  case closeSlice w e before =>
    simp only [exec]
    split
    · exact gear_modifyWorker s w (fun _ => rfl) (fun _ => rfl) fun _ => rfl
    · rfl
  case resetTimer e slice =>
    refine ⟨⟨(s.executor e).timeout.executionTime s.clock, ?_⟩, fun hnever => ?_, fun habandoned => ?_⟩
    · exact (gear_emit_deed _ rfl).trans (congrArg (Gear.deed · _) (gear_modifyTimeout s e _))
    · subst hnever
      cases h
      rfl
    · subst habandoned
      cases h
      exact ⟨_, rfl⟩
  case account e o => exact gear_observe s e o
  case warnAllocation e before after => exact gear_report s _
  case settle e =>
    have hs := gear_settle s e
    simp only [exec]
    split <;> rename_i heq <;> rw [heq] at hs <;> exact hs
  case retire w => exact drive_retire s t w next
  case takeAbandoned w => exact gear_modifyWorker s w (fun _ => rfl) (fun _ => rfl) fun _ => rfl
  case decideRespawn w =>
    cases h
    refine ⟨rfl, _, rfl, ?_⟩
    show _ ↔ s.phase = .running ∨ s.phase = .stopping ∧ s.queue ≠ []
    cases s.phase <;> simp
  case vacate w respawn => exact gear_vacate s w respawn
  case inspect => cases h; exact ⟨rfl, rfl⟩
  case checkWorker w =>
    cases h
    refine ⟨rfl, ?_⟩
    cases hc : s.current? w with
    | some e => exact Or.inl ⟨e, (current_eq s w e).2 hc, rfl⟩
    | none => exact Or.inr ⟨fun e => by simp [current_eq, hc], rfl⟩
  case measure w e => cases h; exact ⟨rfl, rfl⟩
  case raise w e overrun =>
    have hg := gear_modifyTimeout s e (·.hardAbort)
    have hf : (s.gear.timeout e).flags.hardAborted = (s.executor e).timeout.flags.hardAborted := rfl
    simp only [exec, raise] at h
    simp only [exec, raise, Instr.Drive, hf]
    by_cases hup : (s.executor e).timeout.flags.hardAborted = true
    · rw [if_pos hup] at h ⊢
      cases h
      exact ⟨hg, by rw [if_pos hup]⟩
    · rw [if_neg hup] at h ⊢
      cases h
      exact ⟨(gear_report _ _).trans hg, by rw [if_neg hup]⟩
  case press w e overrun => cases h; exact gear_press s w e overrun
  case report w e overrun => exact gear_beginReport s w e overrun
  case writeReport e overrun thread => exact gear_writeReport s e overrun thread
  case stopWait deadline timeout => exact drive_stopWait s t deadline timeout h
  all_goals rfl

/-- A thread is torn down by an observer of the host that fails. -/
theorem exec_torn (s : Pool n) (t : ThreadId) (i : Instr n) (h : (s.exec t i).2 = none) :
    ∃ e o, i = .account e o ∧ (s.exec t i).1.books = s.books ∧ (s.exec t i).1.gear = s.gear ∧
      (s.gear.host e).sink = .host true := by
  obtain ⟨⟨e, o, rfl⟩, hb⟩ := exec_none s t i h
  refine ⟨e, o, rfl, hb, gear_observe s e o, ?_⟩
  simp only [exec] at h
  split at h
  · rename_i hf
    show (s.executor e).host.sink = _
    unfold observerFails at hf
    split at hf
    · rename_i fails hsink
      rw [hsink, hf]
    · cases hf
  · cases h

end Pool

/-! ## Threads -/

namespace Books

variable {b b' : Books n}

/-- Executors begin to run when a worker takes them and end when their stay on it does. -/
theorem running_of_effect {i : Instr n} {next : List (Instr n)} (he : i.Effect b b' next) :
    (∃ taken, b'.running = b.running ++ taken) ∨ ∃ e, i = .settle e ∧ b'.running = b.running.filter (· != e) := by
  have hkeep : b'.running = b.running → (∃ taken, b'.running = b.running ++ taken) ∨
      ∃ e, i = .settle e ∧ b'.running = b.running.filter (· != e) := fun h => Or.inl ⟨[], by simp [h]⟩
  have htake : ∀ o, b.Takes b' o → ∃ taken, b'.running = b.running ++ taken := by
    intro o ht
    cases ht with
    | found => exact ⟨_, rfl⟩
    | nothing => exact ⟨[], by simp⟩
  cases i
  case call c =>
    cases c
    case submit e => rcases he with ⟨-, rfl, -⟩ | ⟨-, rfl, -⟩ <;> exact hkeep rfl
    case unload e => obtain ⟨rfl, -⟩ := he; exact hkeep rfl
    case stop timeout => obtain ⟨rfl, -⟩ := he; exact hkeep rfl
    all_goals cases he; exact hkeep rfl
  case enqueue e =>
    rcases he with ⟨rfl, -⟩ | ⟨-, rfl, -⟩ | ⟨⟨hired, c, arrival, hh, hc, -, -, rfl⟩, -⟩
    · exact hkeep rfl
    · exact hkeep rfl
    · obtain ⟨runtime, rfl, -⟩ := hc.eq
      obtain ⟨current, live, codes, rfl⟩ := hh.eq
      exact hkeep rfl
  case withdraw e =>
    obtain ⟨rfl, -⟩ := he
    refine hkeep ?_
    split <;> rfl
  case dequeue e => obtain ⟨rfl, -⟩ := he; exact hkeep rfl
  case finishUnload e => rcases he with ⟨-, rfl, -⟩ | ⟨-, rfl, -⟩ <;> exact hkeep rfl
  case callHost e callback =>
    cases callback
    case unload => obtain ⟨rfl, -⟩ := he; exact hkeep rfl
    all_goals cases he; exact hkeep rfl
  case announce e => obtain ⟨rfl, -⟩ := he; exact hkeep rfl
  case seekWork w => rcases he with ⟨e, ht, -⟩ | ⟨ht, -⟩ <;> exact Or.inl (htake _ ht)
  case awaitWork w => rcases he with ⟨e, ht, -⟩ | ⟨ht, -⟩ <;> exact Or.inl (htake _ ht)
  case publish w e a => obtain ⟨rfl, -⟩ := he; exact hkeep rfl
  case closeSlice w e a => obtain ⟨rfl, -⟩ := he; exact hkeep rfl
  case settle e =>
    obtain ⟨⟨c, faults, arrival, hc, -, rfl⟩, -⟩ := he
    obtain ⟨runtime, rfl, -⟩ := hc.eq
    refine Or.inr ⟨e, rfl, ?_⟩
    split <;> rfl
  case retire w => rcases he with ⟨-, rfl, -⟩ | ⟨-, rfl, -⟩ <;> exact hkeep rfl
  case takeAbandoned w => obtain ⟨rfl, -⟩ := he; exact hkeep rfl
  case vacate w respawn =>
    obtain ⟨current, live, codes, rfl⟩ := he.1.eq
    exact hkeep rfl
  case close => obtain ⟨rfl, -⟩ := he; exact hkeep rfl
  all_goals cases he; exact hkeep rfl

/-- What a thread that is started along the way has to do. -/
def Begins (code : List (Instr n)) : Prop :=
  (∃ w, code = [.startWorker w, .nextSlice w]) ∨ code = [.startWatchdog, .watch]

theorem Hires.begins (h : b.Hires b') : ∃ extra, b'.codes = b.codes ++ extra ∧ ∀ code ∈ extra, Begins code := by
  induction h with
  | refl b => exact ⟨[], by simp⟩
  | worker _ ih =>
    obtain ⟨extra, hcodes, hextra⟩ := ih
    refine ⟨_ :: extra, hcodes.trans (List.append_assoc ..), ?_⟩
    exact List.forall_mem_cons.2 ⟨Or.inl ⟨_, rfl⟩, hextra⟩
  | watchdog _ ih =>
    obtain ⟨extra, hcodes, hextra⟩ := ih
    refine ⟨_ :: extra, hcodes.trans (List.append_assoc ..), ?_⟩
    exact List.forall_mem_cons.2 ⟨Or.inr rfl, hextra⟩

/-- The threads after an instruction are those before it and those that it starts. -/
theorem hires_of_effect {i : Instr n} {next : List (Instr n)} (he : i.Effect b b' next) :
    ∃ hired, b.Hires hired ∧ b'.codes = hired.codes := by
  have hkeep : b'.codes = b.codes → ∃ hired, b.Hires hired ∧ b'.codes = hired.codes := fun h => ⟨b, .refl b, h⟩
  by_cases hp : ∃ w e a, i = .publish w e a
  · obtain ⟨w, e, a, rfl⟩ := hp
    obtain ⟨rfl, -⟩ := he
    exact hkeep rfl
  by_cases hc : ∃ w e a, i = .closeSlice w e a
  · obtain ⟨w, e, a, rfl⟩ := hc
    obtain ⟨rfl, -⟩ := he
    exact hkeep rfl
  by_cases ha : ∃ w, i = .takeAbandoned w
  · obtain ⟨w, rfl⟩ := ha
    obtain ⟨rfl, -⟩ := he
    exact hkeep rfl
  by_cases hr : ∃ w, i = .retire w
  · obtain ⟨w, rfl⟩ := hr
    rcases he with ⟨-, rfl, -⟩ | ⟨-, rfl, -⟩ <;> exact hkeep rfl
  obtain ⟨hired, hh, -, -, hcodes, -⟩ := he.staff (fun w e a hi => hp ⟨w, e, a, hi⟩)
    (fun w e a hi => hc ⟨w, e, a, hi⟩) (fun w hi => ha ⟨w, hi⟩) fun w hi => absurd ⟨w, hi⟩ hr
  exact ⟨hired, hh, hcodes⟩

theorem begins_of_effect {i : Instr n} {next : List (Instr n)} (he : i.Effect b b' next) :
    ∃ extra, b'.codes = b.codes ++ extra ∧ ∀ code ∈ extra, Begins code := by
  obtain ⟨hired, hh, hcodes⟩ := hires_of_effect he
  rw [hcodes]
  exact hh.begins

variable {t : ThreadId} {i : Instr n} {rest next : List (Instr n)}

/-- A step changes what one thread has to do, and may start others. -/
theorem codes_step (ht : b.codes[t]? = some (i :: rest))
    (he : i.Effect { b with codes := b.codes.set t rest } b' next) :
    ∃ extra, b'.codes.set t (next ++ rest) = b.codes.set t (next ++ rest) ++ extra ∧
      ∀ code ∈ extra, Begins code := by
  obtain ⟨extra, hcodes, hextra⟩ := begins_of_effect he
  refine ⟨extra, ?_, hextra⟩
  have hlt : t < (b.codes.set t rest).length := by
    rw [List.length_set]
    exact (List.getElem?_eq_some_iff.1 ht).1
  rw [hcodes, List.set_append_left t (next ++ rest) hlt, List.set_set]

/-- The instructions of a kind that threads do not begin with, after a step. -/
theorem countP_step {p : Instr n → Bool} (hp : ∀ code, Begins code → code.countP p = 0)
    (ht : b.codes[t]? = some (i :: rest)) (he : i.Effect { b with codes := b.codes.set t rest } b' next) :
    ({ b' with codes := b'.codes.set t (next ++ rest) } : Books n).todo.countP p + [i].countP p =
      b.todo.countP p + next.countP p := by
  obtain ⟨extra, hcodes, hextra⟩ := codes_step ht he
  have hz : extra.flatten.countP p = 0 := by
    rw [List.countP_eq_zero]
    intro x hx
    obtain ⟨code, hcode, hx⟩ := List.mem_flatten.1 hx
    exact List.countP_eq_zero.1 (hp code (hextra code hcode)) x hx
  have hset := countP_flatten_set p ht (next ++ rest)
  rw [← List.singleton_append, List.countP_append, List.countP_append] at hset
  unfold todo
  simp only [hcodes, List.flatten_append, List.countP_append, hz]
  omega

theorem countP_arrive (p : Instr n → Bool) (c : Call n) :
    ({ b with codes := b.codes ++ [[.call c]] } : Books n).todo.countP p = b.todo.countP p + [Instr.call c].countP p := by
  simp [todo]

theorem countP_replace (p : Instr n → Bool) (ht : b.codes[t]? = some (i :: rest)) (next : List (Instr n)) :
    ({ b with codes := b.codes.set t (next ++ rest) } : Books n).todo.countP p + [i].countP p =
      b.todo.countP p + next.countP p := by
  have hset := countP_flatten_set p ht (next ++ rest)
  rw [← List.singleton_append, List.countP_append, List.countP_append] at hset
  show (b.codes.set t (next ++ rest)).flatten.countP p + _ = b.codes.flatten.countP p + _
  omega

theorem countP_tear (p : Instr n → Bool) {code : List (Instr n)} (ht : b.codes[t]? = some code) :
    ({ b with codes := b.codes.set t [] } : Books n).todo.countP p ≤ b.todo.countP p := by
  have hset := countP_flatten_set p ht []
  show (b.codes.set t []).flatten.countP p ≤ b.codes.flatten.countP p
  simp only [List.countP_nil] at hset
  omega

theorem countP_head_le (p : Instr n → Bool) (ht : b.codes[t]? = some (i :: rest)) : [i].countP p ≤ b.todo.countP p := by
  have hset := countP_flatten_set p ht []
  rw [← List.singleton_append, List.countP_append, List.countP_nil] at hset
  unfold todo
  omega

/-- Instructions of a kind are left after a step only if some were before, where the step comes to them only from one
of the kind. -/
theorem pos_step {p : Instr n → Bool} (hp : ∀ code, Begins code → code.countP p = 0)
    (ht : b.codes[t]? = some (i :: rest)) (he : i.Effect { b with codes := b.codes.set t rest } b' next)
    (hk : 0 < next.countP p → 0 < [i].countP p)
    (h : 0 < ({ b' with codes := b'.codes.set t (next ++ rest) } : Books n).todo.countP p) : 0 < b.todo.countP p := by
  have hc := countP_step hp ht he
  have hle := countP_head_le p ht
  omega

theorem none_step {p : Instr n → Bool} (hp : ∀ code, Begins code → code.countP p = 0)
    (ht : b.codes[t]? = some (i :: rest)) (he : i.Effect { b with codes := b.codes.set t rest } b' next)
    (hk : 0 < next.countP p → 0 < [i].countP p) (hz : b.todo.countP p = 0) :
    ({ b' with codes := b'.codes.set t (next ++ rest) } : Books n).todo.countP p = 0 :=
  Nat.eq_zero_of_not_pos fun hpos => Nat.lt_irrefl 0 (hz ▸ pos_step hp ht he hk hpos)

end Books

/-! ## Actions -/

/-- What the work of an executor has its thread do, for each thing that it does. -/
def WorkAction.Becomes (w : WorkerId) (e : Fin n) (next : List (Instr n)) : WorkAction n → Prop
  | .call c => next = [.call c, .work w e]
  | .sleep _ => ∃ deadline, next = [.sleep w deadline, .work w e]
  | .observe o => next = [.observe e o, .work w e]
  | .allocate _ => next = [.work w e]
  | .finish result => next = [.handle e result]

/-- What one action does to the books and to the gear. -/
inductive Goes (b : Books n) (g : Gear n) : Action n → Books n → Gear n → Prop where
  /-- Nothing. -/
  | rest (a : Action n) : Goes b g a b g
  /-- Time passes. -/
  | advance (nanos : Nat) : Goes b g (.advance nanos) b { g with clock := g.clock + nanos }
  /-- A thread begins with a call. -/
  | arrive (c : Call n) : Goes b g (.call c) { b with codes := b.codes ++ [[.call c]] } g
  /-- The work that a thread is within does something. -/
  | perform (t : ThreadId) (w : WorkerId) (e : Fin n) (rest next : List (Instr n)) (a : WorkAction n)
      (ht : b.codes[t]? = some (.work w e :: rest)) (ha : a.Becomes w e next) :
      Goes b g (.work t a) { b with codes := b.codes.set t (next ++ rest) } g
  /-- A thread carries out an instruction. -/
  | step (t : ThreadId) (i : Instr n) (rest next : List (Instr n)) (b' : Books n) (g' : Gear n)
      (ht : b.codes[t]? = some (i :: rest)) (hw : ∀ w e, i ≠ .work w e)
      (he : i.Effect { b with codes := b.codes.set t rest } b' next) (hl : i.Leads next)
      (hd : i.Drive { b with codes := b.codes.set t rest } b' g g' next) :
      Goes b g (.step t) { b' with codes := b'.codes.set t (next ++ rest) } g'
  /-- A thread is torn down by an observer that fails. -/
  | tear (t : ThreadId) (e : Fin n) (o : Metrics.Observation) (rest : List (Instr n))
      (ht : b.codes[t]? = some (.account e o :: rest)) (hf : (g.host e).sink = .host true) :
      Goes b g (.step t) { b with codes := b.codes.set t [] } g

theorem WorkAction.Becomes.leads {w : WorkerId} {e : Fin n} {next : List (Instr n)} {a : WorkAction n}
    (h : a.Becomes w e next) : (Instr.work w e).Leads next := by
  cases a with
  | call c => cases h; exact Or.inl ⟨_, Or.inl ⟨c, rfl⟩, rfl⟩
  | sleep nanos => obtain ⟨deadline, rfl⟩ := h; exact Or.inl ⟨_, Or.inr (Or.inl ⟨deadline, rfl⟩), rfl⟩
  | observe o => cases h; exact Or.inl ⟨_, Or.inr (Or.inr ⟨o, rfl⟩), rfl⟩
  | allocate bytes => exact Or.inr (Or.inl h)
  | finish result => exact Or.inr (Or.inr ⟨result, h⟩)

theorem Goes.moves {b b' : Books n} {g g' : Gear n} {a : Action n} (h : Goes b g a b' g') : b.Moves b' := by
  cases h with
  | rest a => exact .rest
  | advance nanos => exact .rest
  | arrive c => exact .arrive c
  | perform t w e rest next a ht ha =>
    have hm := Books.Moves.step t (.work w e) rest next _ ht rfl ha.leads
    simpa only [List.set_set] using hm
  | step t i rest next b' g' ht hw he hl hd => exact .step t i rest next b' ht he hl
  | tear t e o rest ht hf => exact .tear t e o rest ht

/-- What was done stays done. -/
theorem Goes.deeds {b b' : Books n} {g g' : Gear n} {a : Action n} (h : Goes b g a b' g') :
    ∃ deeds, g'.deeds = g.deeds ++ deeds := by
  cases h with
  | step t i rest next b' g' ht hw he hl hd =>
    obtain ⟨deeds, hdeeds, -⟩ := hd.deeds
    exact ⟨deeds, hdeeds⟩
  | _ => exact ⟨[], (List.append_nil _).symm⟩

namespace Pool

theorem perform_becomes (s : Pool n) (w : WorkerId) (e : Fin n) (a : WorkAction n) :
    (s.perform w e a).1.books = s.books ∧ (s.perform w e a).1.gear = s.gear ∧
      a.Becomes w e (s.perform w e a).2 := by
  refine ⟨(books_perform s w e a).1, ?_⟩
  cases a with
  | call c => exact ⟨rfl, rfl⟩
  | sleep nanos => exact ⟨rfl, _, rfl⟩
  | observe o => exact ⟨rfl, rfl⟩
  | allocate bytes => exact ⟨gear_modifyWorker s w (fun _ => rfl) (fun _ => rfl) fun _ => rfl, rfl⟩
  | finish result => exact ⟨gear_emit_plain s rfl, rfl⟩

/-- What a thread's next step does, unless it has to wait. -/
theorem step_goes (s : Pool n) (t : ThreadId) {i : Instr n} {rest : List (Instr n)} (hcode : s.code t = i :: rest)
    (hwait : s.mustWait t i = false) :
    (∃ next b' g', i.Effect { s.books with codes := s.books.codes.set t rest } b' next ∧ i.Leads next ∧
      i.Drive { s.books with codes := s.books.codes.set t rest } b' s.gear g' next ∧
      (s.step t).books = { b' with codes := b'.codes.set t (next ++ rest) } ∧ (s.step t).gear = g') ∨
    ∃ e o, i = .account e o ∧ (s.gear.host e).sink = .host true ∧
      (s.step t).books = { s.books with codes := s.books.codes.set t [] } ∧ (s.step t).gear = s.gear := by
  have hb : (s.setCode t rest).books = { s.books with codes := s.books.codes.set t rest } := books_setCode s t rest
  have hl := fun next => @exec_leads n (s.setCode t rest) t i next
  have he := fun next => @exec_effect n (s.setCode t rest) t i next
  have hd := fun next => @exec_drive n (s.setCode t rest) t i next
  have hn := exec_torn (s.setCode t rest) t i
  unfold step
  simp only [hcode, hwait]
  generalize (s.setCode t rest).exec t i = r at hl he hd hn ⊢
  obtain ⟨s', next⟩ := r
  rw [hb] at he hd hn
  cases next with
  | some next =>
    refine Or.inl ⟨next, s'.books, s'.gear, he next rfl, hl next rfl, hd next rfl, ?_, rfl⟩
    exact books_setCode s' t (next ++ rest)
  | none =>
    obtain ⟨e, o, rfl, hbooks, hgear, hf⟩ := hn rfl
    refine Or.inr ⟨e, o, rfl, hf, ?_, hgear⟩
    show (s'.setCode t []).books = _
    have hbooks : s'.books = _ := hbooks
    rw [books_setCode, hbooks, List.set_set]

/-- What an action does to the books and to the gear. -/
theorem act_goes (s : Pool n) (a : Action n) : Goes s.books s.gear a (s.act a).books (s.act a).gear := by
  cases a with
  | step t =>
    show Goes s.books s.gear _ (s.step t).books (s.step t).gear
    cases hcode : s.code t with
    | nil =>
      have hs : s.step t = s := by unfold step; rw [hcode]
      rw [hs]
      exact .rest _
    | cons i rest =>
      have ht := codes_of_code hcode
      cases hwait : s.mustWait t i with
      | true =>
        have hs : s.step t = s := by unfold step; rw [hcode]; simp only [hwait, if_true]
        rw [hs]
        exact .rest _
      | false =>
        have hw : ∀ w e, i ≠ .work w e := by
          rintro w e rfl
          cases hwait
        rcases step_goes s t hcode hwait with ⟨next, b', g', he, hl, hd, hb, hg⟩ | ⟨e, o, rfl, hf, hb, hg⟩
        · rw [hb, hg]
          exact .step t i rest next b' g' ht hw he hl hd
        · rw [hb, hg]
          exact .tear t e o rest ht hf
  | call c =>
    have hb : (s.act (.call c)).books = { s.books with codes := s.books.codes ++ [[.call c]] } := by
      simp [act, books, executor]
    rw [hb]
    exact .arrive c
  | work t a =>
    simp only [act]
    split
    · rename_i w e rest hcode
      obtain ⟨hb, hg, ha⟩ := perform_becomes s w e a
      simp only [books_setCode, gear_setCode, hb, hg]
      exact .perform t w e rest _ a (codes_of_code hcode) ha
    · exact .rest _
  | advance nanos => exact .advance nanos
  | release => exact .rest _

/-! ## Runs -/

theorem run_append (s : Pool n) (l l' : List (Action n)) : s.run (l ++ l') = (s.run l).run l' := List.foldl_append

/-- Every action of a run is of some kind, seen from the state at which it happens. -/
def Along (ok : Pool n → Action n → Prop) (s : Pool n) : List (Action n) → Prop
  | [] => True
  | a :: actions => ok s a ∧ Along ok (s.act a) actions

/-- Whether every action of a run is of some kind can be found out by going through it. -/
instance decidableAlong {ok : Pool n → Action n → Prop} [∀ s a, Decidable (ok s a)] :
    (s : Pool n) → (l : List (Action n)) → Decidable (s.Along ok l)
  | _, [] => .isTrue trivial
  | s, a :: l => @instDecidableAnd _ _ _ (decidableAlong (s.act a) l)

theorem along_append {ok : Pool n → Action n → Prop} {s : Pool n} {l l' : List (Action n)} :
    s.Along ok (l ++ l') ↔ s.Along ok l ∧ (s.run l).Along ok l' := by
  induction l generalizing s with
  | nil => simp [Along, run]
  | cons a l ih => simp [Along, run, ih, and_assoc]

/-- What is kept by every action of some kind is kept by every run of them. -/
theorem run_along {R : Pool n → Action n → Prop} {P : Pool n → Prop}
    (hact : ∀ s a, s.books.Orderly → (∀ e, (s.books.account e).Placed) → P s → R s a → P (s.act a))
    {s : Pool n} (ho : s.books.Orderly) (hp : ∀ e, (s.books.account e).Placed) (h : P s)
    {actions : List (Action n)} (ha : s.Along R actions) : P (s.run actions) := by
  induction actions generalizing s with
  | nil => exact h
  | cons a actions ih =>
    have hm := act_moves s a
    exact ih (ho.moves hm) (fun e => (hp e).move (hm.account ho e)) (hact s a ho hp h ha.1) ha.2

/-- What holds of a pool that was not used yet, and is kept by every action of some kind, holds after every run of them. -/
theorem run_created {R : Pool n → Action n → Prop} {P : Pool n → Prop}
    (hact : ∀ s a, s.books.Orderly → (∀ e, (s.books.account e).Placed) → P s → R s a → P (s.act a))
    {config : SchedulerConfig} {context : Metrics.Context} {log : LogFilter} {hosts : Vector Host n}
    (h : P (create config context log hosts)) {actions : List (Action n)}
    (ha : (create config context log hosts).Along R actions) : P ((create config context log hosts).run actions) :=
  run_along hact (run_orderly config context log hosts []) (run_placed config context log hosts []) h ha

theorem along_true (s : Pool n) (actions : List (Action n)) : s.Along (fun _ _ => True) actions := by
  induction actions generalizing s with
  | nil => trivial
  | cons a actions ih => exact ⟨trivial, ih _⟩

theorem along_of_forall {p : Action n → Prop} {actions : List (Action n)} (h : ∀ a ∈ actions, p a) (s : Pool n) :
    s.Along (fun _ a => p a) actions := by
  induction actions generalizing s with
  | nil => trivial
  | cons a actions ih =>
    rw [List.forall_mem_cons] at h
    exact ⟨h.1, ih h.2 _⟩

theorem along_and {ok ok' : Pool n → Action n → Prop} {s : Pool n} {actions : List (Action n)}
    (h : s.Along ok actions) (h' : s.Along ok' actions) : s.Along (fun s a => ok s a ∧ ok' s a) actions := by
  induction actions generalizing s with
  | nil => trivial
  | cons a actions ih => exact ⟨⟨h.1, h'.1⟩, ih h.2 h'.2⟩

end Pool

end FairShare.Scheduler

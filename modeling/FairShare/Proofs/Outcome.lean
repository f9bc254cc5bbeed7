import FairShare.Proofs.Drive

/-!
# Outcomes

Everything that carrying out an instruction can come to, case by case: what becomes of the books and of the gear, and
which instructions come next. The cases are what `Instr.Effect`, `Instr.Leads` and `Instr.Drive` say together, so that
an invariant is shown by going through them once.
-/

namespace FairShare.Scheduler

variable {n : Nat}

namespace Instr

/-- What carrying out an instruction comes to. -/
inductive Outcome (b : Books n) (g : Gear n) : Instr n → Books n → Gear n → List (Instr n) → Prop where
  | submit (e : Fin n) (h : b.stage e = .idle) :
    Outcome b g (.call (.submit e)) (b.setStage e .queued) g [.enqueue e]
  | resubmit (e : Fin n) (h : b.stage e ≠ .idle) :
    Outcome b g (.call (.submit e)) ((b.setStage e (b.stage e).submitted).mark e .accepted) g []
  | unqueue (e : Fin n) (h : b.stage e = .queued) :
    Outcome b g (.call (.unload e)) (b.setStage e .done) g [.dequeue e, .finishUnload e]
  | unload (e : Fin n) (h : b.stage e = .idle) :
    Outcome b g (.call (.unload e)) (b.setStage e .done) g [.finishUnload e]
  | defer (e : Fin n) (h : b.stage e ≠ .queued) (h' : b.stage e ≠ .idle) :
    Outcome b g (.call (.unload e)) (b.setStage e .done) g []
  | refresh (e : Fin n) (share : Share) (h : share.contended = true →
      b.queue ≠ [] ∧ share.period = g.period (b.running.length + b.queue.length)) :
    Outcome b g (.call (.refresh e)) b (g.onTimeout e (·.refresh share g.clock)) []
  | arm (e : Fin n) (budget : Duration) :
    Outcome b g (.call (.arm e budget)) b (g.onTimeout e (·.armClock budget g.clock)) [.call (.refresh e)]
  | hardAbort (e : Fin n) : Outcome b g (.call (.hardAbort e)) b (g.onTimeout e (·.hardAbort)) []
  | startTimer (e : Fin n) :
    Outcome b g (.call (.startTimer e)) b (g.onTimeout e (·.startClock g.clock)) [.call (.refresh e)]
  | clearTimer (e : Fin n) : Outcome b g (.call (.resetTimer e)) b (g.onTimeout e (·.reset)) []
  | stop (timeout : Duration) :
    Outcome b g (.call (.stop timeout)) { b with phase := b.phase.later .stopping } g [.collect timeout]
  | refuse (e : Fin n) : Outcome b g (.enqueue e) b g [.withdraw e]
  | pass (e : Fin n) (h : b.stage e = .done) : Outcome b g (.enqueue e) (b.mark e .accepted) g []
  | push (e : Fin n) (current : List (Option (Fin n))) (codes : List (List (Instr n))) (runtime : Fin n → Nat)
      (arrival : Nat) (hp : b.phase = .running) (hs : b.stage e ≠ .done) (hh : b.Hires { b with current, codes })
      (hr : ∀ e', e' ∉ b.running ++ [e] → runtime e' = b.runtime e')
      (hm : 0 < g.idle ∨ g.workerCount = g.slots.length ∨ none ∉ g.slots) :
    Outcome b g (.enqueue e) ((({ b with current, codes, runtime } : Books n).push e arrival).mark e .accepted) g []
  | hire (e : Fin n) (slot : Nat) (current : List (Option (Fin n))) (codes : List (List (Instr n)))
      (runtime : Fin n → Nat) (arrival : Nat) (hp : b.phase = .running) (hs : b.stage e ≠ .done)
      (hh : b.Hires { b with current, live := b.live ++ [true], codes })
      (hr : ∀ e', e' ∉ b.running ++ [e] → runtime e' = b.runtime e') (hslot : g.slots[slot]? = some none) :
    Outcome b g (.enqueue e)
      ((({ b with current, live := b.live ++ [true], codes, runtime } : Books n).push e arrival).mark e .accepted)
      (g.hire slot) []
  | withdraw (e : Fin n) :
    Outcome b g (.withdraw e) ((if b.stage e = .queued then b.setStage e .idle else b).mark e .refused) g []
  | dequeue (e : Fin n) : Outcome b g (.dequeue e) { b with queue := b.queue.filter (·.executor != e) } g []
  | refinish (e : Fin n) (h : b.unloaded e = true) : Outcome b g (.finishUnload e) b g []
  | finish (e : Fin n) (h : b.unloaded e = false) :
    Outcome b g (.finishUnload e) { b with unloaded := fun e' => if e' = e then true else b.unloaded e' } g
      [.callHost e .unload, .announce e]
  | announce (e : Fin n) : Outcome b g (.announce e) (b.mark e .announced) g []
  | tell (e : Fin n) : Outcome b g (.callHost e .unload) (b.mark e .unloaded) (g.deed (.called e .unload)) []
  | callHost (e : Fin n) (callback : Callback) (h : callback ≠ .unload) :
    Outcome b g (.callHost e callback) b (g.deed (.called e callback)) []
  | startWorker (w : WorkerId) : Outcome b g (.startWorker w) b { g with started := g.started.set w true } []
  | round (w : WorkerId) (h : b.live[w]? = some true) : Outcome b g (.nextSlice w) b g [.seekWork w, .nextSlice w]
  | dismiss (w : WorkerId) (h : b.live[w]? = some false) : Outcome b g (.nextSlice w) b g [.retire w]
  | stray (w : WorkerId) (h : b.live[w]? = none) : Outcome b g (.nextSlice w) b g []
  | take (i : Instr n) (w : WorkerId) (e : Fin n) (b' : Books n) (idle : Nat) (h : b.Takes b' (some e))
      (hi : i = .seekWork w ∧ idle = g.idle ∨ i = .awaitWork w ∧ idle = g.idle - 1) :
    Outcome b g i b' ({ g with idle }.deed (.taken e w)) [.openSlice w e]
  | close (i : Instr n) (w : WorkerId) (b' : Books n) (idle : Nat) (h : b.Takes b' none) (hp : b.phase ≠ .running)
      (hi : i = .seekWork w ∧ idle = g.idle ∨ i = .awaitWork w ∧ idle = g.idle - 1) :
    Outcome b g i b' { g with idle } [.retire w]
  | await (i : Instr n) (w : WorkerId) (b' : Books n) (idle : Nat) (h : b.Takes b' none) (hp : b.phase = .running)
      (hi : i = .seekWork w ∧ idle = g.idle + 1 ∨ i = .awaitWork w ∧ idle = g.idle) :
    Outcome b g i b' { g with idle } [.awaitWork w]
  | begin (w : WorkerId) (e : Fin n) (h : b.phase = .running) :
    Outcome b g (.openSlice w e) b g [.clearInterrupt w, .call (.startTimer e), .noteAllocated w e]
  | skip (w : WorkerId) (e : Fin n) (h : b.phase ≠ .running) :
    Outcome b g (.openSlice w e) b g [.call (.unload e), .resetTimer e .never]
  | clearInterrupt (w : WorkerId) :
    Outcome b g (.clearInterrupt w) b { g with interrupted := g.interrupted.set w false } []
  | note (w : WorkerId) (e : Fin n) (a : UInt64) : Outcome b g (.noteAllocated w e) b g [.publish w e a]
  | noNote (w : WorkerId) (e : Fin n) : Outcome b g (.noteAllocated w e) b g []
  | publish (w : WorkerId) (e : Fin n) (a : UInt64) :
    Outcome b g (.publish w e a) { b with current := b.current.set w (some e) } g [.callWork w e, .closeSlice w e a]
  | callWork (w : WorkerId) (e : Fin n) : Outcome b g (.callWork w e) b (g.deed (.workBegan e w)) [.work w e]
  | sleep (w : WorkerId) (deadline : Instant) : Outcome b g (.sleep w deadline) b g [.doze w deadline]
  | startle (w : WorkerId) (deadline : Instant) : Outcome b g (.sleep w deadline) b g []
  | doze (w : WorkerId) (deadline : Instant) : Outcome b g (.doze w deadline) b g [.sleep w deadline]
  | wake (w : WorkerId) (deadline : Instant) : Outcome b g (.doze w deadline) b g []
  | observe (e : Fin n) (o : Metrics.Observation) : Outcome b g (.observe e o) b g []
  | handle (e : Fin n) (result : WorkResult) : Outcome b g (.handle e result) b g []
  | fail (e : Fin n) (result : WorkResult) : Outcome b g (.handle e result) b g [.callHost e .abortWithError]
  | endSlice (w : WorkerId) (e e' : Fin n) (a : UInt64) (slice : SliceRecord) (h : b.current[w]? = some (some e')) :
    Outcome b g (.closeSlice w e a) { b with current := b.current.set w none } g [.resetTimer e slice]
  | lostSlice (w : WorkerId) (e : Fin n) (a : UInt64) (h : ∀ e', b.current[w]? ≠ some (some e')) :
    Outcome b g (.closeSlice w e a) { b with current := b.current.set w none } g []
  | reset (e : Fin n) (slice : SliceRecord) (elapsed : Nat) (accounts : List (Instr n))
      (h : ∀ x ∈ accounts, (∃ o, x = .account e o) ∨ ∃ before after, x = .warnAllocation e before after)
      (hn : slice = .never → accounts = []) :
    Outcome b g (.resetTimer e slice) b ((g.onTimeout e (·.reset)).deed (.timerReset e elapsed))
      (accounts ++ [.settle e])
  | account (e : Fin n) (o : Metrics.Observation) : Outcome b g (.account e o) b g []
  | warnAllocation (e : Fin n) (before after : UInt64) : Outcome b g (.warnAllocation e before after) b g []
  | settle (e : Fin n) (runtime : Fin n → Nat) (faults : List (Event n)) (next : List (Instr n))
      (h : ¬(b.stage e = .repeating ∧ b.phase ≠ .closed))
      (hf : b.stage e ≠ .idle → b.stage e ≠ .queued → faults = b.faults)
      (hr : ∀ e', e' ∉ b.running → e' ≠ e → runtime e' = b.runtime e')
      (hn : next = if b.stage e = .done then [.finishUnload e] else []) :
    Outcome b g (.settle e)
      ((({ b with running := b.running.filter (· != e), runtime, faults } : Books n).setStage e
        (b.stage e).sliceEnded).mark e .settled) g next
  | requeue (e : Fin n) (runtime : Fin n → Nat) (faults : List (Event n)) (arrival : Nat)
      (h : b.stage e = .repeating) (hp : b.phase ≠ .closed)
      (hf : b.stage e ≠ .idle → b.stage e ≠ .queued → faults = b.faults)
      (hr : ∀ e', e' ∉ b.running → e' ≠ e → runtime e' = b.runtime e') :
    Outcome b g (.settle e)
      (((({ b with running := b.running.filter (· != e), runtime, faults } : Books n).setStage e .queued).mark e
        .settled).push e arrival) g []
  | retire (w : WorkerId) (h : b.live[w]? = some true) :
    Outcome b g (.retire w) { b with live := b.live.set w false } (g.deed (.retired w))
      [.takeAbandoned w, .decideRespawn w]
  | retired (w : WorkerId) (h : b.live[w]? ≠ some true) : Outcome b g (.retire w) b g []
  | abandon (w : WorkerId) (e : Fin n) (h : b.current[w]? = some (some e)) :
    Outcome b g (.takeAbandoned w) { b with current := b.current.set w none } g [.resetTimer e .abandoned]
  | unburdened (w : WorkerId) (h : ∀ e, b.current[w]? ≠ some (some e)) :
    Outcome b g (.takeAbandoned w) { b with current := b.current.set w none } g []
  | decide (w : WorkerId) (respawn : Bool) (h : respawn = true ↔ b.phase = .running ∨ b.phase = .stopping ∧ b.queue ≠ []) :
    Outcome b g (.decideRespawn w) b g [.vacate w respawn]
  | unseated (w : WorkerId) (respawn : Bool) (current : List (Option (Fin n))) (codes : List (List (Instr n)))
      (hh : b.Hires { b with current, codes }) (h : g.seats[w]? = none) :
    Outcome b g (.vacate w respawn) { b with current, codes } g []
  | displaced (w : WorkerId) (respawn : Bool) (slot : Nat) (current : List (Option (Fin n)))
      (codes : List (List (Instr n))) (hh : b.Hires { b with current, codes }) (h : g.seats[w]? = some slot)
      (hs : g.slots[slot]? ≠ some (some w)) :
    Outcome b g (.vacate w respawn) { b with current, codes } g.discount []
  | leave (w : WorkerId) (slot : Nat) (current : List (Option (Fin n))) (codes : List (List (Instr n)))
      (hh : b.Hires { b with current, codes }) (h : g.seats[w]? = some slot) (hs : g.slots[slot]? = some (some w)) :
    Outcome b g (.vacate w false) { b with current, codes } (g.leave slot) []
  | replace (w : WorkerId) (slot : Nat) (current : List (Option (Fin n))) (codes : List (List (Instr n)))
      (hh : b.Hires { b with current, live := b.live ++ [true], codes }) (h : g.seats[w]? = some slot)
      (hs : g.slots[slot]? = some (some w)) :
    Outcome b g (.vacate w true) { b with current, live := b.live ++ [true], codes } ((g.leave slot).hire slot) []
  | startWatchdog : Outcome b g .startWatchdog b g []
  | watch : Outcome b g .watch b g [.beginWatch]
  | watchEnds : Outcome b g .watch b g []
  | beginWatch (deadline : Instant) : Outcome b g .beginWatch b g [.watching deadline, .inspect, .watch]
  | watching (deadline : Instant) : Outcome b g (.watching deadline) b g []
  | inspect (ws : List WorkerId) (h : ws = g.slots.filterMap id) : Outcome b g .inspect b g (ws.map .checkWorker)
  | check (w : WorkerId) (e : Fin n) (h : b.current[w]? = some (some e)) :
    Outcome b g (.checkWorker w) b g [.call (.refresh e), .measure w e]
  | checkNone (w : WorkerId) (h : ∀ e, b.current[w]? ≠ some (some e)) : Outcome b g (.checkWorker w) b g []
  | inTime (w : WorkerId) (e : Fin n)
      (h : ((g.timeout e).overrun g.clock).nanos < g.config.timeouts.abortTimeout.nanos) :
    Outcome b g (.measure w e) b g []
  | overrun (w : WorkerId) (e : Fin n) (o : Duration) (ho : o = (g.timeout e).overrun g.clock)
      (h : g.config.timeouts.abortTimeout.nanos ≤ o.nanos) :
    Outcome b g (.measure w e) b g [.raise w e o]
  | raise (w : WorkerId) (e : Fin n) (o : Duration) (h : (g.timeout e).flags.hardAborted = false) :
    Outcome b g (.raise w e o) b (g.onTimeout e (·.hardAbort)) [.callHost e .abortWithTimeout, .press w e o]
  | raised (w : WorkerId) (e : Fin n) (o : Duration) (h : (g.timeout e).flags.hardAborted = true) :
    Outcome b g (.raise w e o) b (g.onTimeout e (·.hardAbort)) [.press w e o]
  | press (w : WorkerId) (e : Fin n) (o : Duration)
      (h : 2 * g.config.timeouts.abortTimeout.nanos ≤ o.nanos) (h' : o.nanos < 3 * g.config.timeouts.abortTimeout.nanos)
      (hc : b.current[w]? = some (some e)) :
    Outcome b g (.press w e o) b ((g.interrupt w).deed (.interrupted w)) [.report w e o]
  | giveUp (w : WorkerId) (e : Fin n) (o : Duration)
      (h : 3 * g.config.timeouts.abortTimeout.nanos ≤ o.nanos) (hc : b.current[w]? = some (some e)) :
    Outcome b g (.press w e o) b ((g.interrupt w).deed (.interrupted w)) [.report w e o, .retire w]
  | noPress (w : WorkerId) (e : Fin n) (o : Duration)
      (h : o.nanos < 2 * g.config.timeouts.abortTimeout.nanos ∨ b.current[w]? ≠ some (some e)) :
    Outcome b g (.press w e o) b g []
  | report (w : WorkerId) (e : Fin n) (o : Duration) (thread : String) :
    Outcome b g (.report w e o) b g [.writeReport e o thread]
  | noReport (w : WorkerId) (e : Fin n) (o : Duration) : Outcome b g (.report w e o) b g []
  | writeReport (e : Fin n) (o : Duration) (thread : String) :
    Outcome b g (.writeReport e o thread) b (g.deed (.called e .writeState)) []
  | collect (timeout : Duration) (es : List (Fin n)) :
    Outcome b g (.collect timeout) b g (es.map (.call ∘ .hardAbort) ++ [.wakeWorkers, .beginStopWait timeout])
  | wakeWorkers : Outcome b g .wakeWorkers b g []
  | beginStopWait (timeout : Duration) (deadline : Instant) :
    Outcome b g (.beginStopWait timeout) b g [.stopWait deadline timeout]
  | stopped (deadline : Instant) (timeout : Duration) (h : g.workerCount = 0) :
    Outcome b g (.stopWait deadline timeout) b g [.close]
  | stopExpired (deadline : Instant) (timeout : Duration) (h : 0 < g.workerCount) (hd : deadline ≤ g.clock) :
    Outcome b g (.stopWait deadline timeout) b g []
  | stopWait (deadline : Instant) (timeout : Duration) (waiters : List ThreadId) (h : 0 < g.workerCount) :
    Outcome b g (.stopWait deadline timeout) b { g with stopWaiters := waiters } [.stopWait deadline timeout]
  | shut : Outcome b g .close { b with phase := b.phase.later .closed } g [.wakeWatchdog]
  | wakeWatchdog : Outcome b g .wakeWatchdog b g []

variable {b b' : Books n} {g g' : Gear n} {next : List (Instr n)}

theorem outcome_enqueue {e : Fin n} (he : (enqueue e).Effect b b' next)
    (hd : (enqueue e).Drive b b' g g' next) : Outcome b g (.enqueue e) b' g' next := by
  have hgrow : ∀ live : List Bool, live ≠ live ++ [true] := fun live h => by
    have := congrArg List.length h
    simp at this
  rcases he with ⟨rfl, rfl⟩ | ⟨h, rfl, rfl⟩ | ⟨⟨hired, c, arrival, hh, hc, hp, hs, rfl⟩, rfl⟩
  · rcases hd with ⟨rfl, -⟩ | ⟨-, slot, -, -, hlive⟩
    · exact .refuse e
    · exact absurd hlive (hgrow _)
  · rcases hd with ⟨rfl, -⟩ | ⟨-, slot, -, -, hlive⟩
    · exact .pass e h
    · exact absurd hlive (hgrow _)
  · obtain ⟨runtime, rfl, hr⟩ := hc.eq
    obtain ⟨current, live, codes, rfl⟩ := hh.eq
    rcases hd with ⟨rfl, hlive, hm⟩ | ⟨-, slot, hslot, rfl, hlive⟩
    · obtain rfl : live = b.live := hlive
      refine .push e current codes runtime arrival hp hs hh hr (hm.resolve_left fun hq => ?_)
      have hlen := congrArg (List.countP fun _ => true) hq
      simp [Books.countP_insert] at hlen
    · obtain rfl : live = b.live ++ [true] := hlive
      exact .hire e slot current codes runtime arrival hp hs hh hr hslot

theorem outcome_settle {e : Fin n} (he : (settle e).Effect b b' next) (hd : (settle e).Drive b b' g g' next) :
    Outcome b g (.settle e) b' g' next := by
  cases hd
  obtain ⟨⟨c, faults, arrival, hc, hf, rfl⟩, rfl⟩ := he
  obtain ⟨runtime, rfl, hr⟩ := hc.eq
  have hr' : ∀ e', e' ∉ b.running → e' ≠ e → runtime e' = b.runtime e' := by
    intro e' hn hne
    refine hr e' fun hm => ?_
    simp only [List.mem_append, List.mem_filter, List.mem_singleton] at hm
    exact hm.elim (fun hm => hn hm.1) hne
  have hf' : b.stage e ≠ .idle → b.stage e ≠ .queued → b.faults ++ faults = b.faults := by
    intro h1 h2
    rw [hf h1 h2, List.append_nil]
  by_cases h : b.stage e = .repeating ∧ b.phase ≠ .closed
  · rw [if_pos h]
    have hn : (if b.stage e = .done then [finishUnload e] else []) = ([] : List (Instr n)) := by simp [h.1]
    rw [hn]
    have hs : (b.stage e).sliceEnded = .queued := by rw [h.1]; rfl
    rw [hs]
    exact .requeue e runtime _ arrival h.1 h.2 hf' hr'
  · rw [if_neg h]
    exact .settle e runtime _ _ h hf' hr' rfl

theorem outcome_press {w : WorkerId} {e : Fin n} {o : Duration} (hd : (press w e o).Drive b b g g' next) :
    Outcome b g (.press w e o) b g' next := by
  simp only [Drive] at hd
  split at hd
  · rename_i h
    obtain ⟨rfl, rfl⟩ := hd
    split
    · exact .giveUp w e o (by omega) h.2
    · exact .press w e o (by omega) (by omega) h.2
  · rename_i h
    obtain ⟨rfl, rfl⟩ := hd
    refine .noPress w e o ?_
    by_cases hc : b.current[w]? = some (some e)
    · exact Or.inl (Nat.lt_of_not_le fun hle => h ⟨by omega, hc⟩)
    · exact Or.inr hc

/-- What an instruction does is one of the outcomes. -/
theorem outcome {i : Instr n} (hw : ∀ w e, i ≠ .work w e) (he : i.Effect b b' next) (hl : i.Leads next)
    (hd : i.Drive b b' g g' next) : Outcome b g i b' g' next := by
  cases i
  case call c =>
    cases c
    case submit e =>
      cases hd
      rcases he with ⟨h, rfl, rfl⟩ | ⟨h, rfl, rfl⟩
      · exact .submit e h
      · exact .resubmit e h
    case unload e =>
      cases hd
      obtain ⟨rfl, rfl⟩ := he
      split
      · exact .unqueue e ‹_›
      · exact .unload e ‹_›
      · exact .defer e ‹_› ‹_›
    case refresh e =>
      cases he
      cases hl
      obtain ⟨share, rfl, h⟩ := hd
      exact .refresh e share h
    case arm e budget => cases he; cases hl; cases hd; exact .arm e budget
    case hardAbort e => cases he; cases hl; cases hd; exact .hardAbort e
    case startTimer e => cases he; cases hl; cases hd; exact .startTimer e
    case resetTimer e => cases he; cases hl; cases hd; exact .clearTimer e
    case stop timeout =>
      cases hd
      obtain ⟨rfl, rfl⟩ := he
      exact .stop timeout
  case enqueue e => exact outcome_enqueue he hd
  case withdraw e =>
    cases hd
    obtain ⟨rfl, rfl⟩ := he
    exact .withdraw e
  case dequeue e =>
    cases hd
    obtain ⟨rfl, rfl⟩ := he
    exact .dequeue e
  case finishUnload e =>
    cases hd
    rcases he with ⟨h, rfl, rfl⟩ | ⟨h, rfl, rfl⟩
    · exact .refinish e h
    · exact .finish e h
  case announce e =>
    cases hd
    obtain ⟨rfl, rfl⟩ := he
    exact .announce e
  case callHost e callback =>
    cases hd
    cases callback
    case unload =>
      obtain ⟨rfl, rfl⟩ := he
      exact .tell e
    all_goals cases he; cases hl; exact .callHost e _ (by decide)
  case startWorker w => cases he; cases hl; cases hd; exact .startWorker w
  case nextSlice w =>
    cases he
    obtain ⟨rfl, ⟨h, rfl⟩ | ⟨h, rfl⟩ | ⟨h, rfl⟩⟩ := hd
    · exact .round w h
    · exact .dismiss w h
    · exact .stray w h
  case seekWork w =>
    rcases hd with ⟨e, rfl, rfl⟩ | ⟨hp, rfl, rfl⟩ | ⟨hp, rfl, rfl⟩
    · rcases he with ⟨e', ht, hn⟩ | ⟨-, hn | hn⟩ <;> cases hn
      exact .take _ w e b' _ ht (Or.inl ⟨rfl, Nat.add_sub_cancel ..⟩)
    · rcases he with ⟨e', -, hn⟩ | ⟨ht, -⟩
      · cases hn
      · exact .close _ w b' _ ht hp (Or.inl ⟨rfl, Nat.add_sub_cancel ..⟩)
    · rcases he with ⟨e', -, hn⟩ | ⟨ht, -⟩
      · cases hn
      · exact .await _ w b' _ ht hp (Or.inl ⟨rfl, rfl⟩)
  case awaitWork w =>
    rcases hd with ⟨e, rfl, rfl⟩ | ⟨hp, rfl, rfl⟩ | ⟨hp, rfl, rfl⟩
    · rcases he with ⟨e', ht, hn⟩ | ⟨-, hn | hn⟩ <;> cases hn
      exact .take _ w e b' _ ht (Or.inr ⟨rfl, rfl⟩)
    · rcases he with ⟨e', -, hn⟩ | ⟨ht, -⟩
      · cases hn
      · exact .close _ w b' _ ht hp (Or.inr ⟨rfl, rfl⟩)
    · rcases he with ⟨e', -, hn⟩ | ⟨ht, -⟩
      · cases hn
      · exact .await _ w b' _ ht hp (Or.inr ⟨rfl, rfl⟩)
  case openSlice w e =>
    cases he
    obtain ⟨rfl, ⟨h, rfl⟩ | ⟨h, rfl⟩⟩ := hd
    · exact .begin w e h
    · exact .skip w e h
  case clearInterrupt w => cases he; cases hl; cases hd; exact .clearInterrupt w
  case noteAllocated w e =>
    cases he
    cases hd
    rcases hl with rfl | ⟨a, rfl⟩
    · exact .noNote w e
    · exact .note w e a
  case publish w e a =>
    cases hd
    obtain ⟨rfl, rfl⟩ := he
    exact .publish w e a
  case callWork w e => cases he; cases hl; cases hd; exact .callWork w e
  case work w e => exact absurd rfl (hw w e)
  case sleep w deadline =>
    cases he
    cases hd
    rcases hl with rfl | rfl
    · exact .startle w deadline
    · exact .sleep w deadline
  case doze w deadline =>
    cases he
    cases hd
    rcases hl with rfl | rfl
    · exact .wake w deadline
    · exact .doze w deadline
  case observe e o => cases he; cases hl; cases hd; exact .observe e o
  case handle e result =>
    cases he
    cases hd
    rcases hl with rfl | rfl
    · exact .handle e result
    · exact .fail e result
  case closeSlice w e a =>
    cases hd
    obtain ⟨rfl, ⟨e', slice, h, rfl⟩ | ⟨h, rfl⟩⟩ := he
    · exact .endSlice w e e' a slice h
    · exact .lostSlice w e a h
  case resetTimer e slice =>
    cases he
    obtain ⟨⟨elapsed, rfl⟩, hn, -⟩ := hd
    obtain ⟨accounts, h, rfl⟩ := hl
    exact .reset e slice elapsed accounts h fun hnever => by simpa using hn hnever
  case account e o => cases he; cases hl; cases hd; exact .account e o
  case warnAllocation e before after => cases he; cases hl; cases hd; exact .warnAllocation e before after
  case settle e => exact outcome_settle he hd
  case retire w =>
    rcases he with ⟨h, rfl, rfl⟩ | ⟨h, rfl, rfl⟩
    · rcases hd with ⟨-, rfl⟩ | ⟨hn, -⟩
      · exact .retire w h
      · exact absurd h hn
    · rcases hd with ⟨hn, -⟩ | ⟨-, rfl⟩
      · exact absurd hn h
      · exact .retired w h
  case takeAbandoned w =>
    cases hd
    obtain ⟨rfl, ⟨e, h, rfl⟩ | ⟨h, rfl⟩⟩ := he
    · exact .abandon w e h
    · exact .unburdened w h
  case decideRespawn w =>
    cases he
    obtain ⟨rfl, respawn, rfl, h⟩ := hd
    exact .decide w respawn h
  case vacate w respawn =>
    obtain ⟨hh, rfl⟩ := he
    obtain ⟨current, live, codes, rfl⟩ := hh.eq
    rcases hd with ⟨⟨h, rfl⟩ | ⟨slot, h, hs, rfl⟩ | ⟨slot, h, hs, rfl, rfl⟩, hlive⟩ | ⟨slot, h, hs, rfl, rfl, hlive⟩ <;>
      obtain rfl : live = _ := hlive
    · exact .unseated w respawn current codes hh h
    · exact .displaced w respawn slot current codes hh h hs
    · exact .leave w slot current codes hh h hs
    · exact .replace w slot current codes hh h hs
  case startWatchdog => cases he; cases hl; cases hd; exact .startWatchdog
  case watch =>
    cases he
    cases hd
    rcases hl with rfl | rfl
    · exact .watchEnds
    · exact .watch
  case beginWatch =>
    cases he
    cases hd
    obtain ⟨deadline, rfl⟩ := hl
    exact .beginWatch deadline
  case watching deadline => cases he; cases hl; cases hd; exact .watching deadline
  case inspect =>
    cases he
    obtain ⟨rfl, rfl⟩ := hd
    have h := Outcome.inspect (b := b) (g := g') _ rfl
    rw [List.map_filterMap] at h
    exact h
  case checkWorker w =>
    cases he
    obtain ⟨rfl, ⟨e, h, rfl⟩ | ⟨h, rfl⟩⟩ := hd
    · exact .check w e h
    · exact .checkNone w h
  case measure w e =>
    cases he
    obtain ⟨rfl, rfl⟩ := hd
    split
    · exact .overrun w e _ rfl ‹_›
    · exact .inTime w e (Nat.lt_of_not_le ‹_›)
  case raise w e o =>
    cases he
    obtain ⟨rfl, rfl⟩ := hd
    split
    · rename_i h
      exact .raised w e o h
    · rename_i h
      exact .raise w e o (Bool.not_eq_true _ ▸ h)
  case press w e o => cases he; exact outcome_press hd
  case report w e o =>
    cases he
    cases hd
    rcases hl with rfl | ⟨thread, rfl⟩
    · exact .noReport w e o
    · exact .report w e o thread
  case writeReport e o thread => cases he; cases hl; cases hd; exact .writeReport e o thread
  case collect timeout =>
    cases he
    cases hd
    obtain ⟨es, rfl⟩ := hl
    exact .collect timeout es
  case wakeWorkers => cases he; cases hl; cases hd; exact .wakeWorkers
  case beginStopWait timeout =>
    cases he
    cases hd
    obtain ⟨deadline, rfl⟩ := hl
    exact .beginStopWait timeout deadline
  case stopWait deadline timeout =>
    cases he
    rcases hd with ⟨h, rfl, rfl⟩ | ⟨h, hd, rfl, rfl⟩ | ⟨h, waiters, rfl, rfl⟩
    · exact .stopped deadline timeout h
    · exact .stopExpired deadline timeout h hd
    · exact .stopWait deadline timeout waiters h
  case close =>
    cases hd
    obtain ⟨rfl, rfl⟩ := he
    exact .shut
  case wakeWatchdog => cases he; cases hl; cases hd; exact .wakeWatchdog

end Instr

end FairShare.Scheduler

import FairShare.Proofs.Drive

/-!
# The shape of a thread

An instruction that belongs to a larger operation is followed by the rest of that operation: a point of a slice by the
next round of its worker, the end of a stay by that round or by the end of a retirement, a step of escalation by the
rest of the watchdog's round. `Fitting` says so for all that a thread still has to do.
-/

namespace FairShare.Scheduler

variable {n : Nat}

namespace Instr

/-- Which instructions can come right after which. -/
inductive Yields : Instr n → Instr n → Prop where
  | enqueue (e : Fin n) : Yields (.call (.submit e)) (.enqueue e)
  | dequeue (e : Fin n) : Yields (.call (.unload e)) (.dequeue e)
  | finishUnload (e : Fin n) : Yields (.call (.unload e)) (.finishUnload e)
  | armed (e : Fin n) (budget : Duration) : Yields (.call (.arm e budget)) (.call (.refresh e))
  | started (e : Fin n) : Yields (.call (.startTimer e)) (.call (.refresh e))
  | collect (timeout : Duration) : Yields (.call (.stop timeout)) (.collect timeout)
  | withdraw (e : Fin n) : Yields (.enqueue e) (.withdraw e)
  | tell (e : Fin n) : Yields (.finishUnload e) (.callHost e .unload)
  | announce (e : Fin n) : Yields (.finishUnload e) (.announce e)
  | dismiss (w : WorkerId) : Yields (.nextSlice w) (.retire w)
  | seek (w : WorkerId) : Yields (.nextSlice w) (.seekWork w)
  | round (w : WorkerId) : Yields (.nextSlice w) (.nextSlice w)
  | seekTake (w : WorkerId) (e : Fin n) : Yields (.seekWork w) (.openSlice w e)
  | seekRetire (w : WorkerId) : Yields (.seekWork w) (.retire w)
  | seekAwait (w : WorkerId) : Yields (.seekWork w) (.awaitWork w)
  | awaitTake (w : WorkerId) (e : Fin n) : Yields (.awaitWork w) (.openSlice w e)
  | awaitRetire (w : WorkerId) : Yields (.awaitWork w) (.retire w)
  | await (w : WorkerId) : Yields (.awaitWork w) (.awaitWork w)
  | unload (w : WorkerId) (e : Fin n) : Yields (.openSlice w e) (.call (.unload e))
  | never (w : WorkerId) (e : Fin n) : Yields (.openSlice w e) (.resetTimer e .never)
  | clearInterrupt (w : WorkerId) (e : Fin n) : Yields (.openSlice w e) (.clearInterrupt w)
  | startTimer (w : WorkerId) (e : Fin n) : Yields (.openSlice w e) (.call (.startTimer e))
  | note (w : WorkerId) (e : Fin n) : Yields (.openSlice w e) (.noteAllocated w e)
  | publish (w : WorkerId) (e : Fin n) (a : UInt64) : Yields (.noteAllocated w e) (.publish w e a)
  | callWork (w : WorkerId) (e : Fin n) (a : UInt64) : Yields (.publish w e a) (.callWork w e)
  | closeSlice (w : WorkerId) (e : Fin n) (a : UInt64) : Yields (.publish w e a) (.closeSlice w e a)
  | work (w : WorkerId) (e : Fin n) : Yields (.callWork w e) (.work w e)
  | call (w : WorkerId) (e : Fin n) (c : Call n) : Yields (.work w e) (.call c)
  | sleep (w : WorkerId) (e : Fin n) (deadline : Instant) : Yields (.work w e) (.sleep w deadline)
  | observe (w : WorkerId) (e : Fin n) (o : Metrics.Observation) : Yields (.work w e) (.observe e o)
  | within (w : WorkerId) (e : Fin n) : Yields (.work w e) (.work w e)
  | handle (w : WorkerId) (e : Fin n) (result : WorkResult) : Yields (.work w e) (.handle e result)
  | asleep (w : WorkerId) (deadline : Instant) : Yields (.sleep w deadline) (.doze w deadline)
  | awake (w : WorkerId) (deadline : Instant) : Yields (.doze w deadline) (.sleep w deadline)
  | fail (e : Fin n) (result : WorkResult) : Yields (.handle e result) (.callHost e .abortWithError)
  | reset (w : WorkerId) (e : Fin n) (a : UInt64) (slice : SliceRecord) :
    Yields (.closeSlice w e a) (.resetTimer e slice)
  | account (e : Fin n) (slice : SliceRecord) (o : Metrics.Observation) : Yields (.resetTimer e slice) (.account e o)
  | warn (e : Fin n) (slice : SliceRecord) (before after : UInt64) :
    Yields (.resetTimer e slice) (.warnAllocation e before after)
  | settle (e : Fin n) (slice : SliceRecord) : Yields (.resetTimer e slice) (.settle e)
  | settled (e : Fin n) : Yields (.settle e) (.finishUnload e)
  | takeAbandoned (w : WorkerId) : Yields (.retire w) (.takeAbandoned w)
  | decideRespawn (w : WorkerId) : Yields (.retire w) (.decideRespawn w)
  | abandon (w : WorkerId) (e : Fin n) : Yields (.takeAbandoned w) (.resetTimer e .abandoned)
  | vacate (w : WorkerId) (respawn : Bool) : Yields (.decideRespawn w) (.vacate w respawn)
  | beginWatch : Yields .watch .beginWatch
  | watching (deadline : Instant) : Yields .beginWatch (.watching deadline)
  | inspect : Yields .beginWatch .inspect
  | watch : Yields .beginWatch .watch
  | check (w : WorkerId) : Yields .inspect (.checkWorker w)
  | refresh (w : WorkerId) (e : Fin n) : Yields (.checkWorker w) (.call (.refresh e))
  | measure (w : WorkerId) (e : Fin n) : Yields (.checkWorker w) (.measure w e)
  | raise (w : WorkerId) (e : Fin n) (overrun : Duration) : Yields (.measure w e) (.raise w e overrun)
  | abort (w : WorkerId) (e : Fin n) (overrun : Duration) :
    Yields (.raise w e overrun) (.callHost e .abortWithTimeout)
  | press (w : WorkerId) (e : Fin n) (overrun : Duration) : Yields (.raise w e overrun) (.press w e overrun)
  | report (w : WorkerId) (e : Fin n) (overrun : Duration) : Yields (.press w e overrun) (.report w e overrun)
  | giveUp (w : WorkerId) (e : Fin n) (overrun : Duration) : Yields (.press w e overrun) (.retire w)
  | writeReport (w : WorkerId) (e : Fin n) (overrun : Duration) (thread : String) :
    Yields (.report w e overrun) (.writeReport e overrun thread)
  | abortCollected (timeout : Duration) (e : Fin n) : Yields (.collect timeout) (.call (.hardAbort e))
  | wakeWorkers (timeout : Duration) : Yields (.collect timeout) .wakeWorkers
  | beginStopWait (timeout : Duration) : Yields (.collect timeout) (.beginStopWait timeout)
  | beginWait (timeout : Duration) (deadline : Instant) : Yields (.beginStopWait timeout) (.stopWait deadline timeout)
  | close (deadline : Instant) (timeout : Duration) : Yields (.stopWait deadline timeout) .close
  | wait (deadline : Instant) (timeout : Duration) : Yields (.stopWait deadline timeout) (.stopWait deadline timeout)
  | wakeWatchdog : Yields .close .wakeWatchdog

theorem Leads.yields {i x : Instr n} {next : List (Instr n)} (hl : i.Leads next) (hx : x ∈ next) : i.Yields x := by
  cases i
  case call c =>
    cases c
    case submit e => rcases hl with rfl | rfl <;> simp at hx; exact hx ▸ .enqueue e
    case unload e =>
      rcases hl with rfl | rfl | rfl <;> simp at hx
      · exact hx ▸ .finishUnload e
      · rcases hx with rfl | rfl
        · exact .dequeue e
        · exact .finishUnload e
    case arm e budget => cases hl; simp at hx; exact hx ▸ .armed e budget
    case startTimer e => cases hl; simp at hx; exact hx ▸ .started e
    case stop timeout => cases hl; simp at hx; exact hx ▸ .collect timeout
    all_goals cases hl; simp at hx
  case enqueue e => rcases hl with rfl | rfl <;> simp at hx; exact hx ▸ .withdraw e
  case finishUnload e =>
    rcases hl with rfl | rfl <;> simp at hx
    rcases hx with rfl | rfl
    · exact .tell e
    · exact .announce e
  case nextSlice w =>
    rcases hl with rfl | rfl | rfl <;> simp at hx
    · exact hx ▸ .dismiss w
    · rcases hx with rfl | rfl
      · exact .seek w
      · exact .round w
  case seekWork w =>
    rcases hl with ⟨e, rfl⟩ | rfl | rfl <;> simp at hx
    · exact hx ▸ .seekTake w e
    · exact hx ▸ .seekRetire w
    · exact hx ▸ .seekAwait w
  case awaitWork w =>
    rcases hl with ⟨e, rfl⟩ | rfl | rfl <;> simp at hx
    · exact hx ▸ .awaitTake w e
    · exact hx ▸ .awaitRetire w
    · exact hx ▸ .await w
  case openSlice w e =>
    rcases hl with rfl | rfl <;> simp at hx
    · rcases hx with rfl | rfl
      · exact .unload w e
      · exact .never w e
    · rcases hx with rfl | rfl | rfl
      · exact .clearInterrupt w e
      · exact .startTimer w e
      · exact .note w e
  case noteAllocated w e => rcases hl with rfl | ⟨a, rfl⟩ <;> simp at hx; exact hx ▸ .publish w e a
  case publish w e a =>
    cases hl
    simp at hx
    rcases hx with rfl | rfl
    · exact .callWork w e a
    · exact .closeSlice w e a
  case callWork w e => cases hl; simp at hx; exact hx ▸ .work w e
  case work w e =>
    rcases hl with ⟨j, hj, rfl⟩ | rfl | ⟨result, rfl⟩ <;> simp at hx
    · rcases hx with rfl | rfl
      · rcases hj with ⟨c, rfl⟩ | ⟨deadline, rfl⟩ | ⟨o, rfl⟩
        · exact .call w e c
        · exact .sleep w e deadline
        · exact .observe w e o
      · exact .within w e
    · exact hx ▸ .within w e
    · exact hx ▸ .handle w e result
  case sleep w deadline => rcases hl with rfl | rfl <;> simp at hx; exact hx ▸ .asleep w deadline
  case doze w deadline => rcases hl with rfl | rfl <;> simp at hx; exact hx ▸ .awake w deadline
  case handle e result => rcases hl with rfl | rfl <;> simp at hx; exact hx ▸ .fail e result
  case closeSlice w e a => rcases hl with rfl | ⟨slice, rfl⟩ <;> simp at hx; exact hx ▸ .reset w e a slice
  case resetTimer e slice =>
    obtain ⟨accounts, ha, rfl⟩ := hl
    rcases List.mem_append.1 hx with hx | hx
    · rcases ha x hx with ⟨o, rfl⟩ | ⟨before, after, rfl⟩
      · exact .account e slice o
      · exact .warn e slice before after
    · rw [List.mem_singleton.1 hx]
      exact .settle e slice
  case settle e => rcases hl with rfl | rfl <;> simp at hx; exact hx ▸ .settled e
  case retire w =>
    rcases hl with rfl | rfl <;> simp at hx
    rcases hx with rfl | rfl
    · exact .takeAbandoned w
    · exact .decideRespawn w
  case takeAbandoned w => rcases hl with rfl | ⟨e, rfl⟩ <;> simp at hx; exact hx ▸ .abandon w e
  case decideRespawn w => obtain ⟨respawn, rfl⟩ := hl; simp at hx; exact hx ▸ .vacate w respawn
  case watch => rcases hl with rfl | rfl <;> simp at hx; exact hx ▸ .beginWatch
  case beginWatch =>
    obtain ⟨deadline, rfl⟩ := hl
    simp at hx
    rcases hx with rfl | rfl | rfl
    · exact .watching deadline
    · exact .inspect
    · exact .watch
  case inspect =>
    obtain ⟨ws, rfl⟩ := hl
    obtain ⟨w, -, rfl⟩ := List.mem_map.1 hx
    exact .check w
  case checkWorker w =>
    rcases hl with rfl | ⟨e, rfl⟩ <;> simp at hx
    rcases hx with rfl | rfl
    · exact .refresh w e
    · exact .measure w e
  case measure w e => rcases hl with rfl | ⟨overrun, rfl⟩ <;> simp at hx; exact hx ▸ .raise w e overrun
  case raise w e overrun =>
    rcases hl with rfl | rfl <;> simp at hx
    · exact hx ▸ .press w e overrun
    · rcases hx with rfl | rfl
      · exact .abort w e overrun
      · exact .press w e overrun
  case press w e overrun =>
    rcases hl with rfl | rfl | rfl <;> simp at hx
    · exact hx ▸ .report w e overrun
    · rcases hx with rfl | rfl
      · exact .report w e overrun
      · exact .giveUp w e overrun
  case report w e overrun => rcases hl with rfl | ⟨thread, rfl⟩ <;> simp at hx; exact hx ▸ .writeReport w e overrun thread
  case collect timeout =>
    obtain ⟨es, rfl⟩ := hl
    rcases List.mem_append.1 hx with hx | hx
    · obtain ⟨e, -, rfl⟩ := List.mem_map.1 hx
      exact .abortCollected timeout e
    · simp at hx
      rcases hx with rfl | rfl
      · exact .wakeWorkers timeout
      · exact .beginStopWait timeout
  case beginStopWait timeout => obtain ⟨deadline, rfl⟩ := hl; simp at hx; exact hx ▸ .beginWait timeout deadline
  case stopWait deadline timeout =>
    rcases hl with rfl | rfl | rfl <;> simp at hx
    · exact hx ▸ .close deadline timeout
    · exact hx ▸ .wait deadline timeout
  case close => cases hl; simp at hx; exact hx ▸ .wakeWatchdog
  all_goals cases hl; simp at hx

/-- What is left of a round of the watchdog between two checks. -/
def Round (rest : List (Instr n)) : Prop := ∃ ws : List WorkerId, rest = ws.map .checkWorker ++ [.watch]

/-- What is left when a worker has retired: nothing, the next round of its thread, or a round of the watchdog. -/
def Base (w : WorkerId) (rest : List (Instr n)) : Prop := rest = [] ∨ rest = [.nextSlice w] ∨ Round rest

/-- What is left when a stay on a worker has ended. -/
def Left (rest : List (Instr n)) : Prop :=
  ∃ w, rest = [.nextSlice w] ∨ ∃ base, Base w base ∧ rest = .decideRespawn w :: base

/-- What is left when an overrun is reported. -/
def Reported (w : WorkerId) (rest : List (Instr n)) : Prop := Round rest ∨ ∃ round, Round round ∧ rest = .retire w :: round

/-- Whether an instruction notes something of a slice that ended. -/
def Notes (i : Instr n) : Prop := (∃ e o, i = .account e o) ∨ ∃ e before after, i = .warnAllocation e before after

/-- What is left when some of a slice that ended was noted. -/
def Noted (rest : List (Instr n)) : Prop :=
  ∃ (accounts : List (Instr n)) (e : Fin n) (left : List (Instr n)),
    (∀ x ∈ accounts, x.Notes) ∧ Left left ∧ rest = accounts ++ .settle e :: left

/-- What follows an instruction. -/
def Fits (rest : List (Instr n)) : Instr n → Prop
  | .startWorker w | .seekWork w | .awaitWork w | .openSlice w _ | .noteAllocated w _ | .publish w _ _
  | .closeSlice w _ _ => rest = [.nextSlice w]
  | .nextSlice _ | .watch | .beginWatch => rest = []
  | .clearInterrupt w => ∃ e, rest = [.call (.startTimer e), .noteAllocated w e, .nextSlice w]
  | .callWork w e | .work w e => ∃ a, rest = [.closeSlice w e a, .nextSlice w]
  | .sleep w _ | .doze w _ => ∃ e a, rest = [.work w e, .closeSlice w e a, .nextSlice w]
  | .observe e _ => ∃ w a, rest = [.work w e, .closeSlice w e a, .nextSlice w]
  | .handle e _ | .callHost e .abortWithError => ∃ w a, rest = [.closeSlice w e a, .nextSlice w]
  | .resetTimer _ _ | .settle _ => Left rest
  | .account _ _ | .warnAllocation _ _ _ => Noted rest
  | .retire w | .decideRespawn w | .vacate w _ => Base w rest
  | .takeAbandoned w => ∃ base, Base w base ∧ rest = .decideRespawn w :: base
  | .startWatchdog | .inspect => rest = [.watch]
  | .watching _ => rest = [.inspect, .watch]
  | .checkWorker _ | .measure _ _ | .raise _ _ _ | .press _ _ _ => Round rest
  | .callHost e .abortWithTimeout => ∃ w overrun round, Round round ∧ rest = .press w e overrun :: round
  | .report w _ _ => Reported w rest
  | .writeReport _ _ _ => ∃ w, Reported w rest
  | _ => True

/-- Every instruction of a thread is followed by what belongs to it. -/
def Fitting : List (Instr n) → Prop
  | [] => True
  | i :: rest => i.Fits rest ∧ Fitting rest

theorem Fitting.of_append {front rest : List (Instr n)} (h : Fitting (front ++ rest)) : Fitting rest := by
  induction front with
  | nil => exact h
  | cons i front ih => exact ih h.2

theorem fitting_round {rest : List (Instr n)} (h : Round rest) : Fitting rest := by
  obtain ⟨ws, rfl⟩ := h
  induction ws with
  | nil => exact ⟨rfl, trivial⟩
  | cons w ws ih => exact ⟨⟨ws, rfl⟩, ih⟩

theorem fitting_accounts {accounts left : List (Instr n)} {e : Fin n} (ha : ∀ x ∈ accounts, x.Notes) (hl : Left left)
    (hf : Fitting left) : Fitting (accounts ++ .settle e :: left) := by
  induction accounts with
  | nil => exact ⟨hl, hf⟩
  | cons x accounts ih =>
    have hrest : ∀ y ∈ accounts, y.Notes := fun y hy => ha y (List.mem_cons_of_mem _ hy)
    refine ⟨?_, ih hrest⟩
    rcases ha x (List.mem_cons_self ..) with ⟨e', o, rfl⟩ | ⟨e', before, after, rfl⟩ <;>
      exact ⟨accounts, e, left, hrest, hl, rfl⟩

/-- Every instruction is still followed by what belongs to it when one was carried out. -/
theorem Fitting.step {i : Instr n} {rest next : List (Instr n)} (h : Fitting (i :: rest)) (hl : i.Leads next) :
    Fitting (next ++ rest) := by
  obtain ⟨hi, hr⟩ := h
  cases i
  case call c =>
    cases c
    case submit e => rcases hl with rfl | rfl <;> simp [Fitting, Fits, hr]
    case unload e => rcases hl with rfl | rfl | rfl <;> simp [Fitting, Fits, hr]
    all_goals cases hl; simp [Fitting, Fits, hr]
  case enqueue e => rcases hl with rfl | rfl <;> simp [Fitting, Fits, hr]
  case finishUnload e => rcases hl with rfl | rfl <;> simp [Fitting, Fits, hr]
  case nextSlice w =>
    cases hi
    rcases hl with rfl | rfl | rfl <;> simp [Fitting, Fits, Base]
  case seekWork w =>
    cases hi
    rcases hl with ⟨e, rfl⟩ | rfl | rfl <;> simp [Fitting, Fits, Base]
  case awaitWork w =>
    cases hi
    rcases hl with ⟨e, rfl⟩ | rfl | rfl <;> simp [Fitting, Fits, Base]
  case openSlice w e =>
    cases hi
    rcases hl with rfl | rfl <;> simp [Fitting, Fits, Left]
  case noteAllocated w e =>
    cases hi
    rcases hl with rfl | ⟨a, rfl⟩ <;> simp [Fitting, Fits]
  case publish w e a => cases hi; cases hl; simp [Fitting, Fits]
  case callWork w e => obtain ⟨a, rfl⟩ := hi; cases hl; simp [Fitting, Fits]
  case work w e =>
    obtain ⟨a, rfl⟩ := hi
    rcases hl with ⟨j, hj, rfl⟩ | rfl | ⟨result, rfl⟩
    · rcases hj with ⟨c, rfl⟩ | ⟨deadline, rfl⟩ | ⟨o, rfl⟩ <;> simp [Fitting, Fits]
    · simp [Fitting, Fits]
    · simp [Fitting, Fits]
  case sleep w deadline =>
    obtain ⟨e, a, rfl⟩ := hi
    rcases hl with rfl | rfl <;> simp [Fitting, Fits]
  case doze w deadline =>
    obtain ⟨e, a, rfl⟩ := hi
    rcases hl with rfl | rfl <;> simp [Fitting, Fits]
  case handle e result =>
    obtain ⟨w, a, rfl⟩ := hi
    rcases hl with rfl | rfl <;> simp [Fitting, Fits]
  case closeSlice w e a =>
    cases hi
    rcases hl with rfl | ⟨slice, rfl⟩ <;> simp [Fitting, Fits, Left]
  case resetTimer e slice =>
    obtain ⟨accounts, ha, rfl⟩ := hl
    rw [List.append_assoc]
    refine fitting_accounts (fun x hx => ?_) hi hr
    exact (ha x hx).imp (fun ⟨o, ho⟩ => ⟨e, o, ho⟩) fun ⟨before, after, hw⟩ => ⟨e, before, after, hw⟩
  case settle e => rcases hl with rfl | rfl <;> simp [Fitting, Fits, hr]
  case retire w =>
    rcases hl with rfl | rfl
    · exact hr
    · exact ⟨⟨rest, hi, rfl⟩, hi, hr⟩
  case takeAbandoned w =>
    obtain ⟨base, hb, rfl⟩ := hi
    rcases hl with rfl | ⟨e, rfl⟩
    · exact hr
    · exact ⟨⟨w, Or.inr ⟨base, hb, rfl⟩⟩, hr⟩
  case decideRespawn w => obtain ⟨respawn, rfl⟩ := hl; exact ⟨hi, hr⟩
  case watch => cases hi; rcases hl with rfl | rfl <;> simp [Fitting, Fits]
  case beginWatch =>
    cases hi
    obtain ⟨deadline, rfl⟩ := hl
    simp [Fitting, Fits]
  case inspect =>
    cases hi
    obtain ⟨ws, rfl⟩ := hl
    exact fitting_round ⟨ws, rfl⟩
  case checkWorker w =>
    rcases hl with rfl | ⟨e, rfl⟩
    · exact hr
    · exact ⟨trivial, hi, hr⟩
  case measure w e =>
    rcases hl with rfl | ⟨overrun, rfl⟩
    · exact hr
    · exact ⟨hi, hr⟩
  case raise w e overrun =>
    rcases hl with rfl | rfl
    · exact ⟨hi, hr⟩
    · exact ⟨⟨w, overrun, rest, hi, rfl⟩, hi, hr⟩
  case press w e overrun =>
    rcases hl with rfl | rfl | rfl
    · exact hr
    · exact ⟨Or.inl hi, hr⟩
    · exact ⟨Or.inr ⟨rest, hi, rfl⟩, Or.inr (Or.inr hi), hr⟩
  case report w e overrun =>
    rcases hl with rfl | ⟨thread, rfl⟩
    · exact hr
    · exact ⟨⟨w, hi⟩, hr⟩
  case collect timeout =>
    obtain ⟨es, rfl⟩ := hl
    induction es with
    | nil => simp [Fitting, Fits, hr]
    | cons e es ih => exact ⟨trivial, ih⟩
  case beginStopWait timeout => obtain ⟨deadline, rfl⟩ := hl; simp [Fitting, Fits, hr]
  case stopWait deadline timeout => rcases hl with rfl | rfl | rfl <;> simp [Fitting, Fits, hr]
  all_goals cases hl; first | exact hr | simp [Fitting, Fits, hr]

end Instr

namespace Books

open Instr

/-- Every thread is fitting. -/
def Fitted (b : Books n) : Prop := ∀ code ∈ b.codes, Fitting code

variable {b b' : Books n} {g g' : Gear n}

theorem Begins.fitting {code : List (Instr n)} (h : Begins code) : Fitting code := by
  rcases h with ⟨w, rfl⟩ | rfl <;> simp [Fitting, Fits]

theorem Fitted.goes (h : b.Fitted) {a : Action n} (hg : Goes b g a b' g') : b'.Fitted := by
  cases hg with
  | rest => exact h
  | advance => exact h
  | arrive c =>
    intro code hc
    rcases List.mem_append.1 hc with hc | hc
    · exact h code hc
    · rw [List.mem_singleton.1 hc]
      exact ⟨trivial, trivial⟩
  | perform t w e rest next a ht ha =>
    intro code hc
    rcases List.mem_or_eq_of_mem_set hc with hc | rfl
    · exact h code hc
    · exact (h _ (List.mem_of_getElem? ht)).step ha.leads
  | step t i rest next b' g' ht hw he hl hd =>
    obtain ⟨extra, hcodes, hextra⟩ := codes_step ht he
    intro code hc
    have hc : code ∈ b.codes.set t (next ++ rest) ++ extra := hcodes ▸ hc
    rcases List.mem_append.1 hc with hc | hc
    · rcases List.mem_or_eq_of_mem_set hc with hc | rfl
      · exact h code hc
      · exact (h _ (List.mem_of_getElem? ht)).step hl
    · exact (hextra code hc).fitting
  | tear t e o rest ht hf =>
    intro code hc
    rcases List.mem_or_eq_of_mem_set hc with hc | rfl
    · exact h code hc
    · trivial

end Books

end FairShare.Scheduler

import FairShare.Proofs.Meter

/-!
# What can be seen of a pool from outside

Two kinds of events have to be looked for in the history itself: who was charged for which stretch of time, and whether
a worker found its slot taken. A view of a pool that sees no other events, and otherwise only which thread is the watchdog
and who waits as one, is changed by few instructions.
-/

namespace FairShare.Scheduler

variable {n : Nat} {α β : Type}

/-- Whether an event tells of a charge, or of a slot that was taken. -/
def Event.isTelling : Event n → Bool
  | .charged .. | .reported (.slotReplaced _) => true
  | _ => false

/-- Whether an event passes an observation on. -/
def Event.isObserved : Event n → Bool
  | .observed .. => true
  | _ => false

/-- Whether an instruction changes who waits as a watchdog, whatever the state. -/
def Instr.rouses : Instr n → Bool
  | .beginWatch | .watching _ | .wakeWatchdog => true
  | _ => false

/-- Whether an instruction has to do with the observers of the metrics context, whatever the state. -/
def Instr.informs : Instr n → Bool
  | .observe .. | .account .. | .announce _ => true
  | _ => false

namespace Pool

/-- What a placid view may see of a pool, besides its history. -/
def outward (s : Pool n) : Option ThreadId × List ThreadId × Metrics.Context := (s.watchdog, s.watchWaiters, s.context)

/-- A view that sees no events but those that tell something and those that pass an observation on, and of the rest of a
pool only its watchdogs and its metrics context. -/
structure Placid (view : Pool n → β) : Prop where
  emit : ∀ (v : Event n) (s : Pool n), v.isTelling = false → v.isObserved = false → view (s.emit v) = view s
  same : ∀ s s' : Pool n, s'.history = s.history → s'.outward = s.outward → view s' = view s

/-- A view that sees no events but those that tell something, and of the rest of a pool only its watchdogs. -/
structure Quiet (view : Pool n → β) : Prop where
  emit : ∀ (v : Event n) (s : Pool n), v.isTelling = false → view (s.emit v) = view s
  same : ∀ s s' : Pool n, s'.history = s.history → s'.watchdog = s.watchdog → s'.watchWaiters = s.watchWaiters →
    view s' = view s

namespace Placid

variable {view : Pool n → β} (hv : Placid view)

include hv

/-- Whatever changes besides what it sees, a view sees nothing of it if one event is told that tells nothing. -/
theorem noted (s s' : Pool n) (v : Event n) (hn : v.isTelling = false) (ho : v.isObserved = false)
    (hh : s'.history = s.history.push v) (hs : s'.outward = s.outward) : view s' = view s :=
  (hv.same (s.emit v) s' hh hs).trans (hv.emit v s hn ho)

theorem callHost (s : Pool n) (e : Fin n) (callback : Callback) : view (s.callHost e callback) = view s := by
  have he : view (s.emit (.called e callback)) = view s := hv.emit _ s rfl rfl
  unfold Pool.callHost
  simp only
  split
  · exact (hv.emit _ _ rfl rfl).trans he
  · exact he

theorem handle (s : Pool n) (e : Fin n) (result : WorkResult) : view (s.handle e result).1 = view s := by
  have hfail : ∀ (notice : Notice) (reason : String), (Event.reported notice : Event n).isTelling = false →
      view ((s.report notice).recordError e reason) = view s := fun notice _ hn =>
    hv.noted s _ (.reported notice) hn rfl rfl rfl
  unfold Pool.handle
  cases result with
  | ok => rfl
  | error error =>
    simp only
    split <;> exact hfail _ _ rfl
  | crashed reason => exact hfail _ _ rfl

theorem press (s : Pool n) (w : WorkerId) (e : Fin n) (overrun : Duration) :
    view (s.press w e overrun).1 = view s := by
  have hi : view (s.interruptIfRunning w e).1 = view s := by
    unfold interruptIfRunning
    split
    · exact hv.noted s _ (.interrupted w) rfl rfl rfl rfl
    · rfl
  unfold Pool.press
  generalize s.interruptIfRunning w e = r at hi
  obtain ⟨s', up⟩ := r
  simp only
  split
  · cases up <;> exact hi
  · rfl

theorem pop (s : Pool n) (q : List (Entry n)) : view (s.pop q).1 = view s := by
  induction q generalizing s with
  | nil => exact hv.same s _ rfl rfl
  | cons head rest ih =>
    unfold Pool.pop
    simp only
    split
    · exact hv.same s _ rfl rfl
    · exact ih s
    · exact (ih _).trans (hv.emit _ s rfl rfl)

theorem take (s : Pool n) (w : WorkerId) : view (s.take w).1 = view s := by
  have hp := hv.pop s s.queue
  unfold Pool.take
  generalize s.pop s.queue = r at hp
  obtain ⟨s', o⟩ := r
  cases o with
  | some e =>
    refine Eq.trans ?_ hp
    exact hv.noted s' _ (.taken e w) rfl rfl rfl rfl
  | none =>
    simp only at hp ⊢
    split
    · refine Eq.trans ?_ hp
      exact hv.same s' _ rfl rfl
    · exact hp

/-- Charging is seen by whoever sees charges. -/
theorem chargeAll (h : ∀ (s : Pool n) e since upTo tasks, view (s.emit (.charged e since upTo tasks)) = view s)
    (s : Pool n) (leaving : Option (Fin n)) : view (s.chargeAll leaving) = view s := by
  have hone : ∀ (now : Instant) (tasks : Nat) (acc : Pool n × Nat) (e : Fin n),
      view (chargeOne now tasks acc e).1 = view acc.1 := by
    intro now tasks acc e
    refine Eq.trans ?_ (h acc.1 e (acc.1.executor e).chargedAt now tasks)
    exact hv.same _ _ rfl rfl
  have hfold : ∀ (l : List (Fin n)) (now : Instant) (tasks : Nat) (acc : Pool n × Nat),
      view (l.foldl (chargeOne now tasks) acc).1 = view acc.1 := by
    intro l now tasks acc
    induction l generalizing acc with
    | nil => rfl
    | cons e l ih => rw [List.foldl_cons, ih, hone]
  have hmin : ∀ (s : Pool n) (least : Nat), view (s.raiseMinimum least) = view s := by
    intro s least
    unfold raiseMinimum
    split
    · exact hv.same s _ rfl rfl
    · rfl
  unfold Pool.chargeAll
  exact (hmin _ _).trans (hfold ..)

/-- The end of a stay shows what charging those who run, and who leaves, does. -/
theorem settle (s : Pool n) (e : Fin n) :
    view (s.settle e).1 = view ({ s with running := s.running.filter (· != e) }.chargeAll (some e)) := by
  have hend : ∀ (r : Pool n) (stage stage' : Stage),
      view ((r.setStage e stage).emit (.settled e stage')) = view r := fun r _ stage' =>
    hv.noted r _ (.settled e stage') rfl rfl rfl rfl
  have hpush : ∀ r : Pool n, view (r.push e).wakeWorker = view r := fun r =>
    hv.noted r _ (.queued e) rfl rfl rfl rfl
  have hreport : ∀ (r : Pool n) (computer : ComputerId) (stage : Stage),
      view (r.report (.impossibleStage computer stage)) = view r := fun r _ _ => hv.emit _ r rfl rfl
  unfold Pool.settle
  simp only
  split
  · split <;> simp only [hend, hpush, hreport]
  · split <;> simp only [hend, hpush, hreport]
  · split <;> simp only [hend, hpush]

/-- Leaving a slot shows whether it was taken. -/
theorem vacate (s : Pool n) (w : WorkerId) (respawn : Bool)
    (h : ∀ worker, s.workers[w]? = some worker → s.slots[worker.slot]? = some (some w) ∨
      ∀ s' : Pool n, view (s'.emit (.reported (.slotReplaced worker.slot))) = view s') :
    view (s.vacate w respawn) = view s := by
  unfold Pool.vacate
  split
  · rfl
  · rename_i worker hw
    simp only
    split
    · split <;> exact hv.same s _ rfl rfl
    · rename_i hslot
      have hreport := (h worker hw).resolve_left hslot { s with workerCount := s.workerCount - 1 }
      refine Eq.trans ?_ (hreport.trans ?_)
      · exact hv.same _ _ rfl rfl
      · exact hv.same s _ rfl rfl

/-- An instruction that neither puts an executor into the run queue, nor ends a stay, nor leaves a slot, nor has to do with
who waits as a watchdog or with the observers, is not seen. -/
theorem exec (s : Pool n) (t : ThreadId) {i : Instr n} (henter : ∀ e, i ≠ .enqueue e) (hsettle : ∀ e, i ≠ .settle e)
    (hvacate : ∀ w respawn, i ≠ .vacate w respawn) (hrouse : i.rouses = false)
    (hinform : i.informs = false) : view (s.exec t i).1 = view s := by
  have hsame : ∀ s' : Pool n, s'.history = s.history → s'.outward = s.outward → view s' = view s :=
    hv.same s
  have htake : ∀ (s : Pool n) (w : WorkerId), view (afterTake w t (s.take w)).1 = view s := by
    intro s w
    have h := hv.take s w
    generalize s.take w = r at h
    obtain ⟨s', found⟩ := r
    cases found with
    | nothing =>
      refine Eq.trans ?_ h
      exact hv.same s' _ rfl rfl
    | _ => exact h
  cases i
  case call c =>
    cases c
    case submit e =>
      simp only [Pool.exec, call]
      split
      · exact hsame _ rfl rfl
      · exact hv.noted s _ (.submitted e (.ok ())) rfl rfl rfl rfl
    all_goals exact hsame _ rfl rfl
  case enqueue e => exact absurd rfl (henter e)
  case withdraw e =>
    simp only [Pool.exec]
    split <;> exact hv.noted s _ (.submitted e (.error .notRunning)) rfl rfl rfl rfl
  case finishUnload e =>
    simp only [Pool.exec]
    split
    · rfl
    · exact hv.noted s _ (.reported (.unloading _)) rfl rfl rfl rfl
  case callHost e callback => exact hv.callHost s e callback
  case nextSlice w =>
    simp only [Pool.exec]
    split <;> rfl
  case seekWork w =>
    refine (htake { s with idle := s.idle + 1 } w).trans ?_
    exact hsame _ rfl rfl
  case awaitWork w => exact htake s w
  case noteAllocated w e =>
    simp only [Pool.exec]
    split <;> rfl
  case callWork w e => exact hv.emit _ s rfl rfl
  case sleep w deadline =>
    simp only [Pool.exec]
    split
    · exact hsame _ rfl rfl
    · rfl
  case doze w deadline =>
    simp only [Pool.exec]
    split
    · exact hsame _ rfl rfl
    · rfl
  case handle e result => exact hv.handle s e result
  case closeSlice w e before =>
    simp only [Pool.exec]
    split
    · exact hsame _ rfl rfl
    · rfl
  case resetTimer e slice => exact hv.noted s _ (.timerReset e _) rfl rfl rfl rfl
  case warnAllocation e before after => exact hv.emit _ s rfl rfl
  case settle e => exact absurd rfl (hsettle e)
  case retire w =>
    simp only [Pool.exec]
    split
    · split
      · exact hv.noted s _ (.retired w) rfl rfl rfl rfl
      · rfl
    · rfl
  case raise w e overrun =>
    simp only [Pool.exec, raise]
    split
    · exact hsame _ rfl rfl
    · exact hv.noted s _ (.reported _) rfl rfl rfl rfl
  case press w e overrun => exact hv.press s w e overrun
  case report w e overrun =>
    simp only [Pool.exec, beginReport]
    split
    · rfl
    · split
      · exact hsame _ rfl rfl
      · rfl
  case writeReport e overrun thread => exact (hv.emit _ _ rfl rfl).trans (hv.callHost s e _)
  case vacate w respawn => exact absurd rfl (hvacate w respawn)
  case stopWait deadline timeout =>
    simp only [Pool.exec]
    split
    · rfl
    · split
      · exact hv.noted s _ (.reported (.stopTimedOut ..)) rfl rfl rfl rfl
      · exact hsame _ rfl rfl
  case beginWatch => cases hrouse
  case watching => cases hrouse
  case wakeWatchdog => cases hrouse
  case observe e o => cases hinform
  case account e o => cases hinform
  case announce e => cases hinform
  all_goals exact hsame _ rfl rfl

end Placid

namespace Quiet

variable {view : Pool n → β} (hv : Quiet view)

include hv

theorem placid : Placid view where
  emit v s hn _ := hv.emit v s hn
  same s s' hh hs := by
    simp only [outward, Prod.mk.injEq] at hs
    exact hv.same s s' hh hs.1 hs.2.1

theorem foldl_metrics (s : Pool n) (notes : List Metrics.Note) :
    view (notes.foldl (fun s note => s.emit (.metrics note)) s) = view s := by
  induction notes generalizing s with
  | nil => rfl
  | cons note notes ih => rw [List.foldl_cons, ih, hv.emit _ _ rfl]

theorem observe (s : Pool n) (e : Fin n) (o : Metrics.Observation) : view (s.observe e o) = view s := by
  unfold Pool.observe
  simp only
  split
  · rw [hv.foldl_metrics]
    refine Eq.trans ?_ (hv.emit (.observed e o) s rfl)
    exact hv.same _ _ rfl rfl rfl
  · exact hv.emit (.observed e o) s rfl

theorem announce (s : Pool n) (e : Fin n) : view (s.announce e) = view s := by
  unfold Pool.announce
  simp only
  rw [hv.foldl_metrics]
  refine Eq.trans ?_ (hv.emit (.announced e) s rfl)
  exact hv.same _ _ rfl rfl rfl

/-- An instruction that neither puts an executor into the run queue, nor ends a stay, nor leaves a slot, nor has to do with
who waits as a watchdog, is not seen. -/
theorem exec (s : Pool n) (t : ThreadId) {i : Instr n} (henter : ∀ e, i ≠ .enqueue e) (hsettle : ∀ e, i ≠ .settle e)
    (hvacate : ∀ w respawn, i ≠ .vacate w respawn) (hrouse : i.rouses = false) : view (s.exec t i).1 = view s := by
  cases hinform : i.informs with
  | false => exact hv.placid.exec s t henter hsettle hvacate hrouse hinform
  | true =>
    cases i with
    | observe e o => exact hv.observe s e o
    | account e o => exact hv.observe s e o
    | announce e => exact hv.announce s e
    | _ => cases hinform

end Quiet

/-! ## What the history tells -/

/-- What the history answers to a question that is put to every event. -/
def told (f : Event n → Option α) (s : Pool n) : List α := s.history.toList.filterMap f

variable {f : Event n → Option α}

theorem told_emit {v : Event n} (h : f v = none) (s : Pool n) : (s.emit v).told f = s.told f := by
  simp [told, toList_emit, h]

theorem quiet_told (hf : ∀ v : Event n, v.isTelling = false → f v = none) : Quiet (told (n := n) f) where
  emit v s hv := told_emit (hf v hv) s
  same s s' hh _ _ := by rw [told, told, hh]

theorem told_ensureRunning (s : Pool n) : s.ensureRunning.told f = s.told f := by
  obtain ⟨s', ⟨-, rfl⟩ | ⟨-, rfl⟩, ⟨hrun, -⟩ | ⟨slot, -, hrun⟩⟩ := s.ensureRunning_cases <;> rw [hrun] <;> rfl

variable (hf : ∀ v : Event n, v.isTelling = false → f v = none)

include hf

/-- An instruction that neither puts an executor into the run queue, nor ends a stay, nor leaves a slot tells nothing. -/
theorem told_exec (s : Pool n) (t : ThreadId) {i : Instr n} (henter : ∀ e, i ≠ .enqueue e)
    (hsettle : ∀ e, i ≠ .settle e) (hvacate : ∀ w respawn, i ≠ .vacate w respawn) :
    (s.exec t i).1.told f = s.told f := by
  cases hrouse : i.rouses with
  | false => exact (quiet_told hf).exec s t henter hsettle hvacate hrouse
  | true =>
    unfold Instr.rouses at hrouse
    split at hrouse <;> first | rfl | cases hrouse

/-- Putting an executor into the run queue tells what charging those who run does. -/
theorem told_enqueue (s : Pool n) (e : Fin n) {s' : Pool n} (h : s.enqueue e = .ok s') :
    s'.told f = s.told f ∨ s'.told f = (s.ensureRunning.chargeAll none).told f := by
  unfold enqueue at h
  split at h
  · cases h
  · split at h
    · cases h
      exact Or.inl rfl
    · right
      simp only at h
      generalize s.ensureRunning.chargeAll none = c at h ⊢
      have hpush : ∀ x : Executor → Executor, ((c.modify e x).push e).told f = c.told f := fun x =>
        told_emit (hf (.queued e) rfl) (c.modify e x)
      cases h
      split <;> exact hpush _

end Pool

end FairShare.Scheduler

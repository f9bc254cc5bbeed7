import FairShare.Proofs.Admission
import FairShare.Proofs.Drive
import FairShare.Proofs.Unloading

/-!
# What comes after an unload

Nobody takes an executor whose host was told that it is unloaded, and nobody begins its work. What can still come
to the host is what was under way at that moment: a check of the watchdog, and the work of a worker that was retired
over the executor. Each of those comes to at most one call of a kind.
-/

namespace FairShare.Scheduler

variable {n : Nat}

/-- What the host is called for. -/
inductive Visit where
  /-- To run a slice. -/
  | work
  /-- For another part of it. -/
  | part (callback : Callback)
  deriving DecidableEq

/-- Whether an event is a call of the host for an executor. -/
def Event.visits (e : Fin n) (v : Visit) : Event n → Bool
  | .workBegan e' _ => v = .work && e' = e
  | .called e' callback => v = .part callback && e' = e
  | _ => false

/-- Whether an instruction can still come to a call of the host for an executor. -/
def Instr.mayVisit (e : Fin n) (v : Visit) : Instr n → Bool
  | .callWork _ e' => (v = .work || v = .part .abortWithError) && e' = e
  | .work _ e' | .handle e' _ => v = .part .abortWithError && e' = e
  | .measure _ e' | .raise _ e' _ => (v = .part .abortWithTimeout || v = .part .writeState) && e' = e
  | .press _ e' _ | .report _ e' _ | .writeReport e' _ _ => v = .part .writeState && e' = e
  | .callHost e' callback => v = .part callback && e' = e
  | _ => false

theorem Account.Move.unloaded {a a' : Account} (h : a.Move a') (hu : a.unloaded = true) : a'.unloaded = true := by
  cases h <;> first | exact hu | rfl

/-- Nobody takes an executor that is unloaded. -/
theorem Account.Move.taken {a a' : Account} (h : a.Move a') (ha : a.Unloading) (hu : a.unloaded = true) :
    a'.marks.count .taken = a.marks.count .taken := by
  have hf := ha.finished
  cases h <;> grind

namespace Books

open Instr

variable {b b' : Books n} {g g' : Gear n} {e : Fin n}

/-- The host was told that an executor is unloaded, or is about to be: nobody has it or is about to have it. -/
structure Gone (b : Books n) (e : Fin n) : Prop where
  unloaded : b.unloaded e = true
  stays : b.todo.countP (Instr.stays e) = 0
  current : ∀ w : WorkerId, b.current[w]? ≠ some (some e)

theorem Gone.of_account (hp : (b.account e).Placed) (hu : (b.account e).Unloading)
    (h : b.unloaded e = true) : b.Gone e := by
  have hf := hu.finished
  have hun : (b.account e).unloaded = true := h
  rw [if_pos hun] at hf
  have hr : (b.account e).running = 0 := by
    by_contra hne
    rw [if_neg fun hd => hne hd.2] at hf
    omega
  have hs : b.todo.countP (Instr.stays e) + b.current.count (some e) ≤ 0 := hr ▸ hp.staying
  refine ⟨h, by omega, fun w hw => ?_⟩
  have := List.count_pos_iff.2 (List.mem_of_getElem? hw)
  omega

/-- A step comes to no more calls of the host for an executor that is gone than what it carries out could. -/
theorem Gone.step_visits (h : b.Gone e) {i : Instr n} {rest next : List (Instr n)}
    {t : ThreadId} (ht : b.codes[t]? = some (i :: rest))
    (he : i.Effect { b with codes := b.codes.set t rest } b' next) (hl : i.Leads next)
    (hd : i.Drive { b with codes := b.codes.set t rest } b' g g' next) (v : Visit) :
    g'.deeds.countP (Event.visits e v) + next.countP (mayVisit e v) ≤
      g.deeds.countP (Event.visits e v) + [i].countP (mayVisit e v) := by
  obtain ⟨deeds, hdeeds, hi⟩ := hd.deeds
  have hquiet : deeds.countP (Event.visits e v) = 0 → next.countP (mayVisit e v) ≤ [i].countP (mayVisit e v) →
      g'.deeds.countP (Event.visits e v) + next.countP (mayVisit e v) ≤
        g.deeds.countP (Event.visits e v) + [i].countP (mayVisit e v) := by
    intro h1 h2
    rw [hdeeds, List.countP_append]
    omega
  -- Only an instruction that is for the executor counts, so the others need no look at the visit.
  have hone : ∀ x : Event n, deeds = [x] → (if Event.visits e v x then 1 else 0) + next.countP (mayVisit e v) ≤
      [i].countP (mayVisit e v) → g'.deeds.countP (Event.visits e v) + next.countP (mayVisit e v) ≤
        g.deeds.countP (Event.visits e v) + [i].countP (mayVisit e v) := by
    intro x hx h2
    rw [hdeeds, List.countP_append, hx, List.countP_singleton]
    omega
  cases i
  case call c =>
    cases c
    case submit e' => cases hi; rcases hl with rfl | rfl <;> exact hquiet rfl (by simp [mayVisit])
    case unload e' => cases hi; rcases hl with rfl | rfl | rfl <;> exact hquiet rfl (by simp [mayVisit])
    all_goals cases hi; cases hl; exact hquiet rfl (by simp [mayVisit])
  case enqueue e' => cases hi; rcases hl with rfl | rfl <;> exact hquiet rfl (by simp [mayVisit])
  case finishUnload e' =>
    cases hi
    rcases he with ⟨-, -, rfl⟩ | ⟨hu, -, rfl⟩
    · exact hquiet rfl (by simp)
    · have hne : e' ≠ e := by
        rintro rfl
        rw [h.unloaded] at hu
        cases hu
      exact hquiet rfl (by simp [mayVisit, hne])
  case callHost e' callback =>
    cases hl
    refine hone _ hi ?_
    simp [mayVisit, Event.visits]
  case nextSlice w => cases hi; rcases hl with rfl | rfl | rfl <;> exact hquiet rfl (by simp [mayVisit])
  case seekWork w =>
    have hz : next.countP (mayVisit e v) = 0 := by rcases hl with ⟨e', rfl⟩ | rfl | rfl <;> simp [mayVisit]
    rcases hi with rfl | ⟨e', rfl⟩ <;> exact hquiet rfl (by omega)
  case awaitWork w =>
    have hz : next.countP (mayVisit e v) = 0 := by rcases hl with ⟨e', rfl⟩ | rfl | rfl <;> simp [mayVisit]
    rcases hi with rfl | ⟨e', rfl⟩ <;> exact hquiet rfl (by omega)
  case openSlice w e' => cases hi; rcases hl with rfl | rfl <;> exact hquiet rfl (by simp [mayVisit])
  case noteAllocated w e' => cases hi; rcases hl with rfl | ⟨a, rfl⟩ <;> exact hquiet rfl (by simp [mayVisit])
  case publish w e' a =>
    cases hi
    cases hl
    have hne : e' ≠ e := by
      rintro rfl
      have hpos : 0 < b.todo.countP (Instr.stays e') :=
        List.countP_pos_iff.2 ⟨_, mem_todo ht, by simp⟩
      rw [h.stays] at hpos
      exact Nat.lt_irrefl 0 hpos
    exact hquiet rfl (by simp [mayVisit, hne])
  case callWork w e' =>
    cases hl
    refine hone _ hi ?_
    by_cases hne : e' = e <;> cases v <;> simp [mayVisit, Event.visits, hne]
  case work w e' =>
    cases hi
    rcases hl with ⟨j, hj, rfl⟩ | rfl | ⟨result, rfl⟩
    · rcases hj with ⟨c, rfl⟩ | ⟨deadline, rfl⟩ | ⟨o, rfl⟩ <;>
        exact hquiet rfl (by simp [mayVisit, List.countP_cons])
    · exact hquiet rfl (Nat.le_refl _)
    · exact hquiet rfl (by simp [mayVisit])
  case sleep w deadline => cases hi; rcases hl with rfl | rfl <;> exact hquiet rfl (by simp [mayVisit])
  case doze w deadline => cases hi; rcases hl with rfl | rfl <;> exact hquiet rfl (by simp [mayVisit])
  case handle e' result =>
    cases hi
    rcases hl with rfl | rfl
    · exact hquiet rfl (by simp)
    · exact hquiet rfl (by simp [mayVisit])
  case closeSlice w e' a => cases hi; rcases hl with rfl | ⟨slice, rfl⟩ <;> exact hquiet rfl (by simp [mayVisit])
  case resetTimer e' slice =>
    obtain ⟨elapsed, rfl⟩ := hi
    obtain ⟨accounts, ha, rfl⟩ := hl
    have hz : accounts.countP (mayVisit e v) = 0 := by
      rw [List.countP_eq_zero]
      intro x hx
      rcases ha x hx with ⟨o, rfl⟩ | ⟨before, after, rfl⟩ <;> simp [mayVisit]
    exact hquiet rfl (by simp [hz, mayVisit])
  case settle e' => cases hi; rcases hl with rfl | rfl <;> exact hquiet rfl (by simp [mayVisit])
  case retire w =>
    have hz : next.countP (mayVisit e v) = 0 := by rcases hl with rfl | rfl <;> simp [mayVisit]
    rcases hi with rfl | rfl <;> exact hquiet rfl (by omega)
  case takeAbandoned w => cases hi; rcases hl with rfl | ⟨e', rfl⟩ <;> exact hquiet rfl (by simp [mayVisit])
  case decideRespawn w => cases hi; obtain ⟨respawn, rfl⟩ := hl; exact hquiet rfl (by simp [mayVisit])
  case watch => cases hi; rcases hl with rfl | rfl <;> exact hquiet rfl (by simp [mayVisit])
  case beginWatch => cases hi; obtain ⟨deadline, rfl⟩ := hl; exact hquiet rfl (by simp [mayVisit])
  case inspect =>
    cases hi
    obtain ⟨ws, rfl⟩ := hl
    refine hquiet rfl ?_
    rw [List.countP_eq_zero.2]
    · exact Nat.zero_le _
    · intro x hx
      obtain ⟨w, -, rfl⟩ := List.mem_map.1 hx
      simp [mayVisit]
  case checkWorker w =>
    cases hi
    rcases hd.2 with ⟨e', hc, rfl⟩ | ⟨-, rfl⟩
    · have hne : e' ≠ e := by
        rintro rfl
        exact h.current w hc
      exact hquiet rfl (by simp [mayVisit, hne])
    · exact hquiet rfl (by simp)
  case measure w e' =>
    cases hi
    rcases hl with rfl | ⟨overrun, rfl⟩ <;> exact hquiet rfl (by simp [mayVisit])
  case raise w e' overrun =>
    cases hi
    rcases hl with rfl | rfl <;> refine hquiet rfl ?_ <;>
      by_cases hne : e' = e <;> cases v <;> simp [mayVisit, hne, List.countP_cons] <;> grind
  case press w e' overrun =>
    have hz : next.countP (mayVisit e v) ≤ [press w e' overrun].countP (mayVisit e v) := by
      rcases hl with rfl | rfl | rfl <;> simp [mayVisit, List.countP_cons]
    rcases hi with rfl | rfl <;> exact hquiet rfl hz
  case report w e' overrun =>
    cases hi
    rcases hl with rfl | ⟨thread, rfl⟩ <;> exact hquiet rfl (by simp [mayVisit])
  case writeReport e' overrun thread =>
    cases hl
    refine hone _ hi ?_
    simp [mayVisit, Event.visits]
  case collect timeout =>
    cases hi
    obtain ⟨es, rfl⟩ := hl
    refine hquiet rfl ?_
    rw [List.countP_eq_zero.2]
    · exact Nat.zero_le _
    · intro x hx
      rcases List.mem_append.1 hx with hx | hx
      · obtain ⟨e', -, rfl⟩ := List.mem_map.1 hx
        simp [mayVisit]
      · simp only [List.mem_cons, List.not_mem_nil, or_false] at hx
        rcases hx with rfl | rfl <;> simp [mayVisit]
  case beginStopWait timeout => cases hi; obtain ⟨deadline, rfl⟩ := hl; exact hquiet rfl (by simp [mayVisit])
  case stopWait deadline timeout => cases hi; rcases hl with rfl | rfl | rfl <;> exact hquiet rfl (by simp [mayVisit])
  all_goals cases hi; cases hl; exact hquiet rfl (by simp [mayVisit])

theorem mayVisit_begins (v : Visit) (code : List (Instr n)) (h : Begins code) : code.countP (mayVisit e v) = 0 := by
  rcases h with ⟨w, rfl⟩ | rfl <;> simp [mayVisit]

/-- No action comes to more calls of the host for an executor that is gone than what is under way could. -/
theorem Gone.visits (h : b.Gone e) {a : Action n} (hg : Goes b g a b' g') (v : Visit) :
    g'.deeds.countP (Event.visits e v) + b'.todo.countP (mayVisit e v) ≤
      g.deeds.countP (Event.visits e v) + b.todo.countP (mayVisit e v) := by
  cases hg with
  | rest => exact Nat.le_refl _
  | advance => exact Nat.le_refl _
  | arrive c => simp [todo, mayVisit]
  | perform t w e' rest next a ht ha =>
    have hc : next.countP (mayVisit e v) ≤ [work w e'].countP (mayVisit e v) := by
      cases a with
      | call c => cases ha; simp [mayVisit, List.countP_cons]
      | sleep nanos => obtain ⟨deadline, rfl⟩ := ha; simp [mayVisit, List.countP_cons]
      | observe o => cases ha; simp [mayVisit, List.countP_cons]
      | allocate bytes => cases ha; exact Nat.le_refl _
      | finish result => cases ha; simp [mayVisit]
    have hset := countP_flatten_set (mayVisit e v) ht (next ++ rest)
    rw [← List.singleton_append, List.countP_append, List.countP_append] at hset
    show _ + (b.codes.set t (next ++ rest)).flatten.countP _ ≤ _ + b.codes.flatten.countP _
    omega
  | step t i rest next b' g' ht hw he hl hd =>
    have hs := h.step_visits ht he hl hd v
    have hc := countP_step (mayVisit_begins (e := e) v) ht he
    omega
  | tear t e' o rest ht hf =>
    have hset := countP_flatten_set (mayVisit e v) ht []
    show _ + (b.codes.set t []).flatten.countP _ ≤ _ + b.codes.flatten.countP _
    simp only [List.countP_nil] at hset
    omega

end Books

/-! ## The calls of the host after an unload -/

namespace Pool

open Instr

/-- How often the host was called for an executor. -/
def visits (s : Pool n) (e : Fin n) (v : Visit) : Nat := s.history.toList.countP (Event.visits e v)

theorem visits_eq (s : Pool n) (e : Fin n) (v : Visit) : s.visits e v = s.gear.deeds.countP (Event.visits e v) := by
  show _ = (s.history.toList.filter Event.isDeed).countP _
  rw [List.countP_filter]
  refine List.countP_congr fun x _ => ?_
  cases x <;> simp [Event.visits, Event.isDeed]

/-- What holds of an executor whose host was told that it is unloaded, or is about to be, and of everything that
comes after it. -/
structure Finished (s : Pool n) (e : Fin n) (more : List (Action n)) : Prop where
  /-- No worker has its slice. -/
  slice : ∀ w, s.current? w ≠ some e
  /-- Whoever is within its work is the thread of a worker that was retired. -/
  retired : ∀ w, 0 < s.pending (works w e) → ∃ worker, s.workers[w]? = some worker ∧ worker.live = false
  /-- Nobody is within its work if no thread of a retired worker is. -/
  nobody : (∀ w worker, s.workers[w]? = some worker → worker.live = false → s.pending (works w e) = 0) →
    s.pending (inside e) = 0
  /-- No worker takes it any more. -/
  taken : (s.run more).times e .taken = s.times e .taken
  /-- The host is called for it at most as often as what is under way comes to. -/
  calls : ∀ v, (s.run more).visits e v ≤ s.visits e v + s.pending (mayVisit e v)
  /-- The host is not called for it any more if nothing is under way. -/
  quiet : ∀ v, s.pending (mayVisit e v) = 0 → (s.run more).visits e v = s.visits e v

/-- What a run comes to after the host was told that an executor is unloaded. -/
theorem run_after (s : Pool n) (hp : ∀ e, (s.books.account e).Placed) (ho : s.books.Orderly) {e : Fin n}
    (hu : (s.books.account e).Unloading) (hun : (s.books.account e).unloaded = true) (more : List (Action n)) :
    ((s.run more).books.account e).Unloading ∧ ((s.run more).books.account e).unloaded = true ∧
      (s.run more).times e .taken = s.times e .taken ∧
      ∀ v, s.visits e v ≤ (s.run more).visits e v ∧
        (s.run more).visits e v + (s.run more).pending (mayVisit e v) ≤ s.visits e v + s.pending (mayVisit e v) := by
  refine run_along (R := fun _ _ => True) (P := fun r => (r.books.account e).Unloading ∧
    (r.books.account e).unloaded = true ∧ r.times e .taken = s.times e .taken ∧
    ∀ v, s.visits e v ≤ r.visits e v ∧ r.visits e v + r.pending (mayVisit e v) ≤ s.visits e v + s.pending (mayVisit e v))
    ?_ ho hp ⟨hu, hun, rfl, fun v => ⟨Nat.le_refl _, Nat.le_refl _⟩⟩ (along_true s more)
  rintro r a hro hrp ⟨hru, hrun, htaken, hvisits⟩ -
  have hgo := act_goes r a
  have hmove := hgo.moves.account hro e
  refine ⟨hru.move (hrp e) hmove, hmove.unloaded hrun, ?_, fun v => ?_⟩
  · rw [← htaken, times_eq, times_eq]
    exact hmove.taken hru hrun
  · obtain ⟨hle, hsum⟩ := hvisits v
    have hstep : (r.act a).visits e v + (r.act a).pending (mayVisit e v) ≤ r.visits e v + r.pending (mayVisit e v) := by
      rw [visits_eq, visits_eq]
      exact (Books.Gone.of_account (hrp e) hru hrun).visits hgo v
    obtain ⟨deeds, hdeeds⟩ := hgo.deeds
    have hgrow : r.visits e v ≤ (r.act a).visits e v := by
      rw [visits_eq, visits_eq, hdeeds, List.countP_append]
      exact Nat.le_add_right ..
    omega

/-- An executor whose host was told that it is unloaded, or is about to be, is finished. -/
theorem run_finished (config : SchedulerConfig) (context : Metrics.Context) (log : LogFilter)
    (hosts : Vector Host n) (actions more : List (Action n)) (e : Fin n) :
    let s := (create config context log hosts).run actions
    0 < s.pending (tells e) + s.times e .unloaded → s.Finished e more := by
  intro s htold
  have hu := run_unloading config context log hosts actions e
  have hp := run_placed config context log hosts actions e
  have ho := run_orderly config context log hosts actions
  have hun : (s.books.account e).unloaded = true := by
    have ht := hu.told
    rw [times_eq] at htold
    by_contra hne
    rw [if_neg hne] at ht
    have hz : s.pending (tells e) + (s.books.account e).marks.count .unloaded = 0 := ht
    omega
  have hgone : s.books.Gone e := .of_account hp hu hun
  have hafter : (s.run more).times e .taken = s.times e .taken ∧
      ∀ v, s.visits e v ≤ (s.run more).visits e v ∧ (s.run more).visits e v ≤ s.visits e v + s.pending (mayVisit e v) := by
    obtain ⟨-, -, ht, hv⟩ := s.run_after (fun e => run_placed config context log hosts actions e) ho hu hun more
    exact ⟨ht, fun v => ⟨(hv v).1, Nat.le_trans (Nat.le_add_right ..) (hv v).2⟩⟩
  have hnone : ∀ w, s.current? w ≠ some e := fun w hw => hgone.current w ((current_eq s w e).2 hw)
  have hretired : ∀ w, 0 < s.pending (works w e) → ∃ worker, s.workers[w]? = some worker ∧ worker.live = false :=
    fun w hw => (current_or_retired ho hw).resolve_left (hnone w)
  constructor
  case slice => exact hnone
  case retired => exact hretired
  case nobody =>
    intro hall
    refine List.countP_eq_zero.2 fun i hi hin => ?_
    obtain ⟨w, hw⟩ := inside_elim hin
    have hpos : 0 < s.pending (works w e) := List.countP_pos_iff.2 ⟨i, hi, hw⟩
    obtain ⟨worker, hget, hlive⟩ := hretired w hpos
    rw [hall w worker hget hlive] at hpos
    exact Nat.lt_irrefl 0 hpos
  case taken => exact hafter.1
  case calls => exact fun v => (hafter.2 v).2
  case quiet =>
    intro v hv
    have := hafter.2 v
    omega

/-! ## A call that comes late -/

/-- The executor is unloaded while its work goes on. The watchdog abandons its worker and tells the host. -/
def unloadedInside : List (Action 1) := unloadedEarly ++ steps 1 3 ++ [.advance 20000000000] ++ steps 1 16

/-- The work fails after all. -/
def failsLate : List (Action 1) := .work 2 (.finish (.crashed none)) :: steps 2 2

theorem finished_unloadedInside :
    0 < (lone.run unloadedInside).pending (tells 0) + (lone.run unloadedInside).times 0 .unloaded ∧
      (lone.run unloadedInside).Finished 0 failsLate :=
  have h : 0 < (lone.run unloadedInside).pending (tells 0) + (lone.run unloadedInside).times 0 .unloaded := by
    decide +kernel
  ⟨h, run_finished _ _ _ _ unloadedInside failsLate 0 h⟩

/-- The host is told that an executor is unloaded while a thread is within its work, and is told of a failure of that
work afterwards. -/
theorem unloaded_within_work :
    (lone.run unloadedInside).times 0 .unloaded = 1 ∧ (lone.run unloadedInside).pending (inside 0) = 1 ∧
      (lone.run unloadedInside).visits 0 (.part .abortWithError) = 0 ∧
      ((lone.run unloadedInside).run failsLate).visits 0 (.part .abortWithError) = 1 := by
  decide +kernel

end Pool

end FairShare.Scheduler

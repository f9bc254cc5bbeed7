import FairShare.Proofs.Draining
import FairShare.Proofs.Unloading

/-!
# Stopping the scheduler

A stop that succeeds leaves a closed scheduler without workers, and one that fails says how many workers are still
counted. From the first stop on submits are refused, whoever is taken is not run, and once no worker is counted no stop
fails any more. Whoever waited then is unloaded when a stop succeeds, if the watchdog took over in time the slices of
the workers that it gave up.
-/

namespace FairShare.Scheduler

variable {n : Nat}

open Instr

/-! ## Steps -/

theorem Phase.rank_le_later (p q : Phase) : p.rank ≤ (p.later q).rank := by
  unfold later
  split <;> omega

theorem Phase.ne_running {p q : Phase} (h : p.rank ≤ q.rank) (hp : p ≠ .running) : q ≠ .running := by
  cases p <;> cases q <;> simp_all [rank]

namespace Instr

variable {b b' : Books n} {g g' : Gear n} {i : Instr n} {next : List (Instr n)}

/-- The phase never goes back. -/
theorem Outcome.phase (ho : Outcome b g i b' g' next) : b.phase.rank ≤ b'.phase.rank := by
  cases ho
  case stop => exact Phase.rank_le_later _ _
  case shut => exact Phase.rank_le_later _ _
  case withdraw e =>
    show _ ≤ (if b.stage e = .queued then b.setStage e .idle else b).phase.rank
    split <;> exact Nat.le_refl _
  case take w e idle hi h => cases h; exact Nat.le_refl _
  case close w idle hp hi h => cases h; exact Nat.le_refl _
  case await w idle hp hi h => cases h; exact Nat.le_refl _
  all_goals exact Nat.le_refl _

/-- There are always as many slots. -/
theorem Outcome.slots (ho : Outcome b g i b' g' next) : g'.slots.length = g.slots.length := by
  cases ho <;> simp [Gear.hire, Gear.leave, Gear.discount, Gear.deed, Gear.onTimeout, Gear.interrupt]

end Instr

namespace Books

variable {b b' : Books n} {g g' : Gear n}

theorem phase_goes {a : Action n} (hg : Goes b g a b' g') : b.phase.rank ≤ b'.phase.rank := by
  cases hg with
  | step t i rest next b' g' ht hw he hl hd => exact (outcome hw he hl hd).phase
  | _ => exact Nat.le_refl _

theorem slots_goes {a : Action n} (hg : Goes b g a b' g') : g'.slots.length = g.slots.length := by
  cases hg with
  | step t i rest next b' g' ht hw he hl hd => exact (outcome hw he hl hd).slots
  | _ => rfl

end Books

namespace Pool

/-! ## The end of a stop -/

/-- What the last call of a thread came to. -/
def answer? (s : Pool n) (t : ThreadId) : Option Answer := (s.threads[t]?).map (·.answer)

/-- The next step of a thread returns from a stop. -/
def StopReturns (s : Pool n) (t : ThreadId) (r : Except SchedulerError Unit) : Prop :=
  ∃ i rest, s.code t = i :: rest ∧ (i = .wakeWatchdog ∨ ∃ deadline timeout, i = .stopWait deadline timeout) ∧
    (s.step t).code t = rest ∧ (s.step t).answer? t = some (.result r)

theorem thread_of_code {s : Pool n} {t : ThreadId} {i : Instr n} {rest : List (Instr n)} (h : s.code t = i :: rest) :
    ∃ thread, (s.setCode t rest).threads[t]? = some thread := by
  unfold code at h
  split at h
  · rename_i thread hthread
    exact ⟨{ thread with code := rest }, by simp [setCode, hthread]⟩
  · cases h

theorem threads_setAnswer {s : Pool n} {t : ThreadId} {thread : Thread n} (h : s.threads[t]? = some thread)
    (answer : Answer) : (s.setAnswer t answer).threads[t]? = some { thread with answer } := by
  simp [setAnswer, h]

/-- A step that need not wait, for an instruction that tears nothing down. -/
theorem step_eq {s s' : Pool n} {t : ThreadId} {i : Instr n} {rest next : List (Instr n)} (h : s.code t = i :: rest)
    (hw : s.mustWait t i = false) (he : (s.setCode t rest).exec t i = (s', some next)) :
    s.step t = s'.setCode t (next ++ rest) := by
  unfold step
  simp only [h, hw, he, Bool.false_eq_true, if_false]

/-- What a thread has to do and what its last call came to, after a step that need not wait. -/
theorem step_thread {s s' : Pool n} {t : ThreadId} {i : Instr n} {rest next : List (Instr n)} {thread : Thread n}
    (h : s.code t = i :: rest) (hw : s.mustWait t i = false) (he : (s.setCode t rest).exec t i = (s', some next))
    (ht : s'.threads[t]? = some thread) :
    (s.step t).code t = next ++ rest ∧ (s.step t).answer? t = some thread.answer := by
  have hs : (s.step t).threads[t]? = some { thread with code := next ++ rest } := by
    rw [step_eq h hw he]
    simp [setCode, ht]
  unfold code answer?
  rw [hs]
  exact ⟨rfl, rfl⟩

/-- A stop returns with success once it wakes the watchdog. -/
theorem step_wakeWatchdog {s : Pool n} {t : ThreadId} {rest : List (Instr n)} (h : s.code t = .wakeWatchdog :: rest) :
    (s.step t).code t = rest ∧ (s.step t).answer? t = some (.result (.ok ())) := by
  obtain ⟨thread, ht⟩ := thread_of_code h
  exact step_thread h rfl rfl (threads_setAnswer (s := { s.setCode t rest with watchWaiters := [] }) ht _)

/-- What a wait for the workers comes to. -/
theorem step_stopWait {s : Pool n} {t : ThreadId} {deadline : Instant} {timeout : Duration} {rest : List (Instr n)}
    (h : s.code t = .stopWait deadline timeout :: rest) (hw : s.mustWait t (.stopWait deadline timeout) = false) :
    (s.workerCount = 0 ∧ (s.step t).code t = .close :: rest) ∨
    (0 < s.workerCount ∧ deadline ≤ s.clock ∧ (s.step t).code t = rest ∧
      (s.step t).answer? t = some (.result (.error (.shutdownTimeout s.workerCount))) ∧
      (s.step t).workerCount = s.workerCount ∧ (s.step t).phase = s.phase) ∨
    (0 < s.workerCount ∧ s.clock < deadline ∧ (s.step t).code t = .stopWait deadline timeout :: rest) := by
  obtain ⟨thread, ht⟩ := thread_of_code h
  by_cases hz : s.workerCount = 0
  · have he : (s.setCode t rest).exec t (.stopWait deadline timeout) = (s.setCode t rest, some [.close]) := if_pos hz
    exact Or.inl ⟨hz, (step_thread h hw he ht).1⟩
  · by_cases hd : deadline ≤ s.clock
    · have he : (s.setCode t rest).exec t (.stopWait deadline timeout) =
          (((s.setCode t rest).report (.stopTimedOut s.workerCount timeout)).setAnswer t
            (.result (.error (.shutdownTimeout s.workerCount))), some []) := (if_neg hz).trans (if_pos hd)
      have hs := step_thread h hw he
        (threads_setAnswer (s := (s.setCode t rest).report (.stopTimedOut s.workerCount timeout)) ht _)
      refine Or.inr (Or.inl ⟨Nat.pos_of_ne_zero hz, hd, hs.1, hs.2, ?_⟩)
      rw [step_eq h hw he]
      exact ⟨rfl, rfl⟩
    · have he : (s.setCode t rest).exec t (.stopWait deadline timeout) =
          ({ s.setCode t rest with stopWaiters := (s.setCode t rest).stopWaiters.filter (· != t) ++ [t] },
            some [.stopWait deadline timeout]) := (if_neg hz).trans (if_neg hd)
      exact Or.inr (Or.inr ⟨Nat.pos_of_ne_zero hz, Nat.lt_of_not_le hd, (step_thread h hw he ht).1⟩)

/-- What a stop can return. -/
theorem StopReturns.cases {s : Pool n} {t : ThreadId} {r : Except SchedulerError Unit} (h : s.StopReturns t r) :
    (r = .ok () ∧ ∃ rest, s.code t = .wakeWatchdog :: rest) ∨
    (r = .error (.shutdownTimeout s.workerCount) ∧ 0 < s.workerCount ∧
      (s.step t).workerCount = s.workerCount ∧ (s.step t).phase = s.phase ∧
      ∃ deadline timeout rest, s.code t = .stopWait deadline timeout :: rest ∧ deadline ≤ s.clock) := by
  obtain ⟨i, rest, hcode, rfl | ⟨deadline, timeout, rfl⟩, hrest, hr⟩ := h
  · have ha := (step_wakeWatchdog hcode).2
    rw [ha] at hr
    cases hr
    exact Or.inl ⟨rfl, rest, hcode⟩
  · have hne : ∀ x : Instr n, x :: rest ≠ rest := fun x hx => by simpa using congrArg List.length hx
    by_cases hw : s.mustWait t (.stopWait deadline timeout) = true
    · have hs : s.step t = s := by unfold step; simp [hcode, hw]
      rw [hs, hcode] at hrest
      exact absurd hrest (hne _)
    · rcases step_stopWait hcode (by simpa using hw) with ⟨-, hc⟩ | ⟨hpos, hd, -, ha, hcount, hphase⟩ | ⟨-, -, hc⟩
      · rw [hc] at hrest
        exact absurd hrest (hne _)
      · rw [ha] at hr
        cases hr
        exact Or.inr ⟨rfl, hpos, hcount, hphase, deadline, timeout, rest, hcode, hd⟩
      · rw [hc] at hrest
        exact absurd hrest (hne _)

/-! ## Submits that are refused -/

/-- Whoever takes a slice over that is not its own finds it there. -/
def inTime (s : Pool n) : Action n → Bool
  | .step t =>
    match s.code t with
    | .takeAbandoned w :: rest => rest.any (nexts w) || (s.current? w).isSome
    | _ => true
  | _ => true

theorem books_inTime {s : Pool n} {a : Action n} (h : s.inTime a = true) : s.books.InTime a := by
  rintro t w rest rfl ht hnext
  have hcode : s.code t = .takeAbandoned w :: rest := by
    rw [code_eq, ht]
    rfl
  have hany : rest.any (nexts w) = false := by
    rw [List.any_eq_false]
    intro i hi hn
    obtain rfl := eq_of_nexts hn
    exact hnext hi
  simp only [inTime, hcode, hany, Bool.false_or] at h
  obtain ⟨e, he⟩ := Option.isSome_iff_exists.1 h
  exact ⟨e, (current_eq s w e).2 he⟩

/-- The workers agree with their slots, and with how far the scheduler is on its way to the end, after every run. -/
structure Manning (s : Pool n) : Prop where
  fitted : s.books.Fitted
  seated : Seated s.books.live s.books.leaving s.gear
  manned : s.books.Manned s.gear

theorem create_manning (config : SchedulerConfig) (context : Metrics.Context) (log : LogFilter) (hosts : Vector Host n) :
    (create config context log hosts).Manning := by
  have hb := books_create config context log hosts
  refine ⟨?_, ?_, ?_⟩ <;> rw [hb]
  · simp [Books.Fitted, Books.start]
  · constructor <;> simp [Books.start, Books.leaving, Books.todo, gear, create, List.countP_replicate,
      List.getElem?_replicate]
  · exact .start rfl rfl

theorem Manning.act {s : Pool n} (h : s.Manning) (ho : s.books.Orderly) (a : Action n) : (s.act a).Manning := by
  have hg := act_goes s a
  exact ⟨h.fitted.goes hg, Books.seated_goes h.seated hg, Books.manned_goes h.manned h.seated ho hg⟩

theorem run_manning (config : SchedulerConfig) (context : Metrics.Context) (log : LogFilter) (hosts : Vector Host n)
    (actions : List (Action n)) : ((create config context log hosts).run actions).Manning := by
  exact run_created (R := fun _ _ => True) (fun s a ho _ h _ => h.act ho a)
    (create_manning config context log hosts) (along_true _ actions)

variable {s : Pool n}

theorem Manning.ended (hm : s.Manning) (ho : s.books.Orderly) {t : ThreadId} (h : s.StopReturns t (.ok ())) :
    (s.step t).workerCount = 0 ∧ (s.step t).phase = .closed := by
  obtain ⟨-, rest, hcode⟩ | ⟨hr, -⟩ := h.cases
  · have hwoken : s.phase = .closed :=
      hm.manned.woken (List.countP_pos_iff.2 ⟨.wakeWatchdog, Books.mem_todo (codes_of_code hcode), rfl⟩)
    have hle : s.phase.rank ≤ (s.step t).phase.rank := Books.phase_goes (act_goes s (.step t))
    have hclosed : (s.step t).phase = .closed := by
      rw [hwoken] at hle
      cases hq : (s.step t).phase <;> simp_all [Phase.rank]
    exact ⟨(hm.act ho (.step t)).manned.closed hclosed, hclosed⟩
  · cases hr

theorem Manning.failed (hm : s.Manning) {t : ThreadId} {err : SchedulerError} (h : s.StopReturns t (.error err)) :
    err = .shutdownTimeout s.workerCount ∧ 0 < s.workerCount ∧ (s.step t).workerCount = s.workerCount ∧
      (s.step t).phase = .stopping ∧
      ∃ deadline timeout rest, s.code t = .stopWait deadline timeout :: rest ∧ deadline ≤ s.clock := by
  obtain ⟨hr, -⟩ | ⟨hr, hpos, hcount, hphase, deadline, timeout, rest, hcode, hd⟩ := h.cases
  · cases hr
  · have hstops : s.phase ≠ .running := hm.manned.stopping
      (List.countP_pos_iff.2 ⟨.stopWait deadline timeout, Books.mem_todo (codes_of_code hcode), rfl⟩)
    have hopen : s.phase ≠ .closed := by
      intro hclosed
      have hz : s.workerCount = 0 := hm.manned.closed hclosed
      omega
    refine ⟨by cases hr; rfl, hpos, hcount, ?_, deadline, timeout, rest, hcode, hd⟩
    rw [hphase]
    cases hph : s.phase <;> simp_all

theorem Manning.counted (hm : s.Manning) :
    s.workerCount = s.slots.countP (·.isSome) ∧
      ∀ w worker, s.workers[w]? = some worker → worker.live = true → some w ∈ s.slots := by
  refine ⟨hm.seated.count, fun w worker hw hlive => ?_⟩
  obtain ⟨k, hk⟩ := hm.seated.holds w (Or.inl (by simp [books, hw, hlive]))
  exact List.mem_of_getElem? hk

/-- Whether an instruction waits for the workers, until a moment that has passed. -/
def expires (now : Instant) : Instr n → Bool
  | .stopWait deadline _ => deadline ≤ now
  | _ => false

theorem stopReturns_error {t : ThreadId} (h : (s.code t).head?.any (expires s.clock) = true) (hpos : 0 < s.workerCount) :
    s.StopReturns t (.error (.shutdownTimeout s.workerCount)) := by
  cases hcode : s.code t with
  | nil => simp [hcode] at h
  | cons i rest =>
    rw [hcode] at h
    cases i <;> simp only [List.head?_cons, Option.any_some, expires, Bool.false_eq_true] at h
    case stopWait deadline timeout =>
      have hd : deadline ≤ s.clock := by simpa using h
      have hwait : s.mustWait t (.stopWait deadline timeout) = false := by
        simp only [mustWait, Bool.and_eq_false_iff]
        exact Or.inr (by simpa using hd)
      obtain ⟨hz, -⟩ | ⟨-, -, hrest, hanswer, -⟩ | ⟨-, hlt, -⟩ := step_stopWait hcode hwait
      · omega
      · exact ⟨_, rest, hcode, Or.inr ⟨deadline, timeout, rfl⟩, hrest, hanswer⟩
      · exact absurd hd (Nat.not_le_of_lt hlt)

/-- A scheduler with two executors. -/
def crew (workers : UInt64) : Pool 2 := create { workerCount := workers } lone.context none both

/-- A thread takes a number of steps. -/
def paces (t : ThreadId) (k : Nat) : List (Action 2) := List.replicate k (.step t)

/-- Both executors are submitted, and the work of the first begins on thread 2. -/
def bothSubmitted : List (Action 2) :=
  .call (.submit first) :: paces 0 2 ++ paces 2 10 ++ .call (.submit second) :: paces 3 2

end Pool

end FairShare.Scheduler

import Mathlib
import FairShare.Proofs.Ledger

/-!
# Consistency of the run queue

The run queue, the running list and the stages of the executors agree after every run, and every place in
the run queue carries the virtual runtime of its executor, whose charges end before it enters the run queue
and begin again only after it left.
-/

namespace FairShare.Scheduler

variable {n : Nat}

namespace Books

open Instr

/-- Every place in the run queue carries the virtual runtime of its executor, and no fault was reported. -/
structure Faithful (b : Books n) : Prop where
  runtime : ∀ q ∈ b.queue, q.runtime = b.runtime q.executor
  faults : b.faults = []

theorem Faithful.start : Faithful (start : Books n) := by
  constructor <;> simp [Books.start]

variable {b b' : Books n} {next : List (Instr n)}

theorem queued_pos {q : Entry n} (hq : q ∈ b.queue) : 0 < (b.account q.executor).queued :=
  List.countP_pos_iff.2 ⟨q, hq, by simp⟩

/-- Whoever is in the run queue is not running. -/
theorem not_mem_running {q : Entry n} (hq : q ∈ b.queue)
    (hs : (b.account q.executor).queued + (b.account q.executor).running ≤ 1) :
    q.executor ∉ b.running := by
  have := queued_pos hq
  refine List.count_eq_zero.1 ?_
  show (b.account q.executor).running = 0
  omega

theorem mem_insert {x q : Entry n} {l : List (Entry n)} (h : q ∈ Entry.insert x l) : q = x ∨ q ∈ l := by
  induction l with
  | nil => simpa [Entry.insert] using h
  | cons y l ih =>
    unfold Entry.insert at h
    split at h
    · simpa using h
    · rcases List.mem_cons.1 h with rfl | h
      · exact Or.inr (List.mem_cons_self ..)
      · exact (ih h).imp_right (List.mem_cons_of_mem _)

theorem Faithful.push (h : b.Faithful) (e : Fin n) (arrival : Nat) : (b.push e arrival).Faithful := by
  refine ⟨fun q hq => ?_, h.faults⟩
  rcases mem_insert hq with rfl | hq
  · rfl
  · exact h.runtime q hq

/-- Charging those who are not in the run queue. -/
theorem Faithful.charged {l : List (Fin n)} (h : b.Faithful) (hc : Charged l b b')
    (hl : ∀ q ∈ b.queue, q.executor ∉ l) : b'.Faithful := by
  obtain ⟨runtime, rfl, hr⟩ := hc.eq
  refine ⟨fun q hq => ?_, h.faults⟩
  show q.runtime = runtime q.executor
  rw [hr _ (hl q hq)]
  exact h.runtime q hq

theorem Faithful.enqueue {e : Fin n} (h : b.Faithful) (he : b.Enqueues e b')
    (hp : ∀ e', ((b.account e').plus e' [.enqueue e]).Placed) : b'.Faithful := by
  obtain ⟨hired, c, arrival, hh, hc, -, -, rfl⟩ := he
  obtain ⟨current, live, codes, rfl⟩ := hh.eq
  have hfaith : ({ b with current, live, codes } : Books n).Faithful := ⟨h.runtime, h.faults⟩
  have hcharged : c.Faithful := by
    refine hfaith.charged hc fun q (hq : q ∈ b.queue) => ?_
    have hs := (hp q.executor).single
    have hpos := queued_pos hq
    simp only [Account.plus] at hs
    have hne : q.executor ≠ e := by
      intro heq
      simp [heq] at hs hpos
      omega
    simp [not_mem_running hq (by omega), hne]
  exact ⟨(hcharged.push e arrival).runtime, (hcharged.push e arrival).faults⟩

/-- A worker finds nothing in the run queue that does not belong there but what was unloaded. -/
theorem done_of_not_queued {q : Entry n} (hq : q ∈ b.queue) (hp : (b.account q.executor).Placed)
    (hne : b.stage q.executor ≠ .queued) : b.stage q.executor = .done := by
  have hpos := queued_pos hq
  have hs := hp.single
  cases hst : b.stage q.executor with
  | idle => have := hp.idle hst; omega
  | queued => exact absurd hst hne
  | running => have := hp.busy (Or.inl hst); omega
  | repeating => have := hp.busy (Or.inr hst); omega
  | done => rfl

theorem Faithful.take {o : Option (Fin n)} (h : b.Faithful) (ht : b.Takes b' o)
    (hp : ∀ e, (b.account e).Placed) : b'.Faithful := by
  cases ht with
  | found skipped head rest faults hq hs hf hh =>
    have hnone : faults = [] := hf fun q hsk =>
      done_of_not_queued (by rw [hq]; exact List.mem_append_left _ hsk) (hp _) (hs q hsk)
    refine ⟨fun q hr => h.runtime q ?_, ?_⟩
    · rw [hq]
      exact List.mem_append_right _ (List.mem_cons_of_mem _ hr)
    · show b.faults ++ faults = []
      rw [h.faults, hnone]
      rfl
  | nothing faults hs hf =>
    have hnone : faults = [] := hf fun q hq => done_of_not_queued hq (hp _) (hs q hq)
    refine ⟨by simp, ?_⟩
    show b.faults ++ faults = []
    rw [h.faults, hnone]
    rfl

theorem Faithful.settle {e : Fin n} (h : b.Faithful) (hs : b.Settles e b')
    (hp : ∀ e', ((b.account e').plus e' [.settle e]).Placed) : b'.Faithful := by
  obtain ⟨c, faults, arrival, hc, hf, rfl⟩ := hs
  -- The stay that ends is that of a running executor.
  have hrun : (b.account e).running = 1 := by
    have h1 := (hp e).staying
    have h2 := (hp e).single
    simp [Account.plus] at h1 h2
    omega
  have hnone : faults = [] := by
    refine hf (fun hi => ?_) fun hq => ?_
    · have := (hp e).idle hi
      simp [Account.plus] at this
      omega
    · have := ((hp e).queued hq).1
      simp [Account.plus] at this
      omega
  have hfaith : ({ b with running := b.running.filter (· != e) } : Books n).Faithful :=
    ⟨h.runtime, h.faults⟩
  have hcharged : c.Faithful := by
    refine hfaith.charged hc fun q (hq : q ∈ b.queue) => ?_
    have hs := (hp q.executor).single
    have hpos := queued_pos hq
    simp only [Account.plus] at hs
    have hne : q.executor ≠ e := by
      intro heq
      simp [heq] at hs hpos
      omega
    simp [not_mem_running hq (by omega), hne]
  have hset : (({ c with faults := c.faults ++ faults }.setStage e (b.stage e).sliceEnded).mark e
      .settled).Faithful :=
    ⟨hcharged.runtime, by simp [hcharged.faults, hnone]⟩
  split
  · exact hset.push e arrival
  · exact hset

theorem Faithful.effect {i : Instr n} (h : b.Faithful) (he : i.Effect b b' next)
    (hp : ∀ e, ((b.account e).plus e [i]).Placed) : b'.Faithful := by
  cases i
  case call c =>
    cases c
    case submit e => rcases he with ⟨-, rfl, -⟩ | ⟨-, rfl, -⟩ <;> exact ⟨h.runtime, h.faults⟩
    case unload e => obtain ⟨rfl, -⟩ := he; exact ⟨h.runtime, h.faults⟩
    case stop timeout => obtain ⟨rfl, -⟩ := he; exact ⟨h.runtime, h.faults⟩
    all_goals cases he; exact h
  case enqueue e =>
    rcases he with ⟨rfl, -⟩ | ⟨-, rfl, -⟩ | ⟨he, -⟩
    · exact h
    · exact ⟨h.runtime, h.faults⟩
    · exact h.enqueue he hp
  case withdraw e => obtain ⟨rfl, -⟩ := he; split <;> exact ⟨h.runtime, h.faults⟩
  case dequeue e =>
    obtain ⟨rfl, -⟩ := he
    exact ⟨fun q hq => h.runtime q (List.mem_filter.1 hq).1, h.faults⟩
  case finishUnload e => rcases he with ⟨-, rfl, -⟩ | ⟨-, rfl, -⟩ <;> exact ⟨h.runtime, h.faults⟩
  case callHost e callback =>
    cases callback
    case unload => obtain ⟨rfl, -⟩ := he; exact ⟨h.runtime, h.faults⟩
    all_goals cases he; exact h
  case announce e => obtain ⟨rfl, -⟩ := he; exact ⟨h.runtime, h.faults⟩
  case seekWork w =>
    have hp' : ∀ e, (b.account e).Placed := fun e => by simpa [Account.plus] using hp e
    rcases he with ⟨e, ht, -⟩ | ⟨ht, -⟩ <;> exact h.take ht hp'
  case awaitWork w =>
    have hp' : ∀ e, (b.account e).Placed := fun e => by simpa [Account.plus] using hp e
    rcases he with ⟨e, ht, -⟩ | ⟨ht, -⟩ <;> exact h.take ht hp'
  case publish w e a => obtain ⟨rfl, -⟩ := he; exact ⟨h.runtime, h.faults⟩
  case closeSlice w e a => obtain ⟨rfl, -⟩ := he; exact ⟨h.runtime, h.faults⟩
  case settle e => exact h.settle he.1 hp
  case retire w => rcases he with ⟨-, rfl, -⟩ | ⟨-, rfl, -⟩ <;> exact ⟨h.runtime, h.faults⟩
  case takeAbandoned w => obtain ⟨rfl, -⟩ := he; exact ⟨h.runtime, h.faults⟩
  case vacate w respawn =>
    obtain ⟨current, live, codes, rfl⟩ := he.1.eq
    exact ⟨h.runtime, h.faults⟩
  case close => obtain ⟨rfl, -⟩ := he; exact ⟨h.runtime, h.faults⟩
  all_goals cases he; exact h

theorem Faithful.moves (h : b.Faithful) (hp : ∀ e, (b.account e).Placed) (hm : b.Moves b') :
    b'.Faithful := by
  cases hm with
  | rest => exact h
  | arrive c => exact ⟨h.runtime, h.faults⟩
  | step t i rest next b' ht he hl =>
    have hb : b'.Faithful := Faithful.effect (b := { b with codes := b.codes.set t rest })
      ⟨h.runtime, h.faults⟩ he fun e => account_head ht e ▸ hp e
    exact ⟨hb.runtime, hb.faults⟩
  | tear t e o rest ht => exact ⟨h.runtime, h.faults⟩

end Books

namespace Pool

open Instr

/-- The run queue, the running list and the stages of the executors agree. -/
structure Consistent (s : Pool n) : Prop where
  /-- No executor is in two places of the run queue and the running list. -/
  nodup : (s.queue.map (·.executor) ++ s.running).Nodup
  /-- Whoever is in the run queue is queued, unless an unload is taking it out. -/
  entry : ∀ e ∈ s.queue.map (·.executor), s.pending (leaves e) = 0 → (s.executor e).stage = .queued
  /-- Whoever is queued is in the run queue, unless a submit is putting it in or everything has ended. -/
  queued : ∀ e, (s.executor e).stage = .queued → s.pending (enters e) = 0 → s.phase ≠ .closed →
    e ∈ s.queue.map (·.executor)
  /-- Whoever runs is in the running list. -/
  busy : ∀ e, (s.executor e).stage.isRunning = true → e ∈ s.running
  /-- Whoever is idle is in neither. -/
  idle : ∀ e, (s.executor e).stage = .idle → e ∉ s.queue.map (·.executor) ∧ e ∉ s.running
  /-- Whoever is unloaded is not in the run queue, unless the unload is taking it out. -/
  done : ∀ e, (s.executor e).stage = .done → s.pending (leaves e) = 0 → e ∉ s.queue.map (·.executor)
  /-- The executors in either are the active ones. -/
  active : s.active =
    (List.finRange n).countP fun e => e ∈ s.queue.map (·.executor) ∨ e ∈ s.running
  /-- A place in the run queue carries the virtual runtime of its executor. -/
  runtime : ∀ q ∈ s.queue, q.runtime = (s.executor q.executor).runtime
  /-- The scheduler never reports a fault of its own. -/
  faultless : ∀ v ∈ s.history.toList, v.isFault = false

theorem run_faithful (config : SchedulerConfig) (context : Metrics.Context) (log : LogFilter)
    (hosts : Vector Host n) (actions : List (Action n)) :
    ((create config context log hosts).run actions).books.Faithful :=
  run_books .start (fun _ _ _ hp hf hm => hf.moves hp hm) config context log hosts actions

theorem count_queue (s : Pool n) (e : Fin n) :
    (s.queue.map (·.executor)).count e = (s.books.account e).queued := by
  rw [List.count_eq_countP, List.countP_map]
  refine List.countP_congr fun q _ => ?_
  simp

theorem mem_queue (s : Pool n) (e : Fin n) :
    e ∈ s.queue.map (·.executor) ↔ 0 < (s.books.account e).queued := by
  rw [← count_queue, List.count_pos_iff]

theorem mem_running (s : Pool n) (e : Fin n) : e ∈ s.running ↔ 0 < (s.books.account e).running :=
  List.count_pos_iff.symm

/-- The members of a list without repetitions, counted among all executors. -/
theorem length_eq_countP {l : List (Fin n)} (h : l.Nodup) :
    l.length = (List.finRange n).countP fun e => e ∈ l := by
  rw [List.countP_eq_length_filter]
  refine ((List.perm_ext_iff_of_nodup h ((List.nodup_finRange n).filter _)).2 fun e => ?_).length_eq
  simp [List.mem_finRange]

/-- The run queue is consistent after every run. -/
theorem run_consistent (config : SchedulerConfig) (context : Metrics.Context) (log : LogFilter)
    (hosts : Vector Host n) (actions : List (Action n)) :
    ((create config context log hosts).run actions).Consistent := by
  have hp := run_placed config context log hosts actions
  have hf := run_faithful config context log hosts actions
  generalize (create config context log hosts).run actions = s at hp hf
  have hnodup : (s.queue.map (·.executor) ++ s.running).Nodup := by
    rw [List.nodup_iff_count]
    intro e
    rw [List.count_append, count_queue]
    have := (hp e).single
    show _ + (s.books.account e).running ≤ 1
    omega
  have hdone : ∀ e, (s.executor e).stage = .done → s.pending (leaves e) = 0 →
      (s.books.account e).queued = 0 := by
    intro e he hl
    have hle := (hp e).done he
    have hz : (s.books.account e).leaving = 0 := hl
    omega
  constructor
  case nodup => exact hnodup
  case entry =>
    intro e he hl
    rw [mem_queue] at he
    have hs := (hp e).single
    cases hst : (s.executor e).stage with
    | idle => have := (hp e).idle hst; omega
    | queued => rfl
    | running => have := (hp e).busy (Or.inl hst); omega
    | repeating => have := (hp e).busy (Or.inr hst); omega
    | done => have := hdone e hst hl; omega
  case queued =>
    intro e hst he hc
    rw [mem_queue]
    have hz : (s.books.account e).entering = 0 := he
    have := ((hp e).queued hst).2.resolve_right hc
    omega
  case busy =>
    intro e he
    rw [mem_running]
    have := (hp e).busy ((Stage.isRunning_iff _).1 he)
    omega
  case idle =>
    intro e he
    rw [mem_queue, mem_running]
    have := (hp e).idle he
    omega
  case done =>
    intro e he hl
    rw [mem_queue]
    have := hdone e he hl
    omega
  case active =>
    have hlen := length_eq_countP hnodup
    simp only [List.length_append, List.length_map, List.mem_append] at hlen
    rw [← hlen]
    exact Nat.add_comm ..
  case runtime => exact hf.runtime
  case faultless =>
    intro v hv
    have := List.filter_eq_nil_iff.1 hf.faults v hv
    simpa using this

/-! ## Schedulers with few executors -/

/-- A scheduler with one executor. -/
def sole (host : Host) (config : SchedulerConfig := {}) : Pool 1 :=
  create config { registry := {}, standard := let m := ⟨0, "", .counter⟩; ⟨m, m, m, m, m, m, m⟩ } none #v[host]

/-- Its executor. -/
def only : Fin 1 := 0

/-- The scheduler with an executor whose observations go nowhere. -/
def lone : Pool 1 := sole { computer := ⟨0⟩, sink := .nowhere }

/-- A duration that does not fit a word. -/
def beyondWord : Duration := ⟨maxWord + 1, by decide⟩

/-- Two executors whose observations go nowhere. -/
def both : Vector Host 2 := #v[{ computer := ⟨0⟩, sink := .nowhere }, { computer := ⟨1⟩, sink := .nowhere }]

/-- The first executor of several. -/
def first : Fin (n + 2) := 0

/-- The second of them. -/
def second : Fin (n + 2) := 1

/-- The third of them, where there are that many. -/
def third : Fin (n + 3) := 2

/-- A thread takes a number of steps. -/
def steps (t : ThreadId) (k : Nat) : List (Action 1) := List.replicate k (.step t)

/-- The executor is submitted by thread 0, and its work begins on thread 2. Thread 1 is the watchdog. -/
def begun : List (Action 1) := .call (.submit only) :: steps 0 2 ++ steps 2 10

/-! ## Where the two exceptions show -/

/-- The work submits its executor again. When it returns, the watchdog is about to retire its worker. Its slice
is closed, the scheduler is stopped and closes, since no worker is left, and the stay ends after that. -/
def settledLate : List (Action 1) :=
  begun ++ [.work 2 (.call (.submit only)), .step 2] ++ steps 1 3 ++ [.advance 20000000000] ++ steps 1 8 ++
    [.work 2 (.finish .ok)] ++ steps 2 2 ++ .call (.stop .zero) :: steps 3 3 ++ steps 1 5 ++ steps 3 4 ++
    steps 2 5 ++ steps 1 1

/-- The executor is unloaded by thread 3 while its work goes on. -/
def unloadedEarly : List (Action 1) := begun ++ .call (.unload only) :: steps 3 1

/-- An executor that is queued is not in the run queue after everything has ended, and one that is unloaded
still counts as active while it runs. -/
theorem queued_outside_and_unloaded_active :
    ((lone.run settledLate).pending (fun _ => true) = 0 ∧
      ((lone.run settledLate).executor 0).stage = .queued ∧ (lone.run settledLate).queue = []) ∧
    ((lone.run unloadedEarly).code 3).isEmpty = true ∧
      ((lone.run unloadedEarly).executor 0).stage = .done ∧ (lone.run unloadedEarly).active = 1 := by
  decide +kernel

end Pool

end FairShare.Scheduler

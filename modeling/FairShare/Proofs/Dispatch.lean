import FairShare.Proofs.Drive
import FairShare.Proofs.Meter

/-!
# Dispatch

The run queue is in order after every run: by virtual runtime, and by arrival where that is equal. Everybody in it is
there with its present virtual runtime and the number of its last arrival, so a worker takes the executor that ran
least, and of equals the one that came first.
-/

namespace FairShare.Scheduler

variable {n : Nat}

/-! ## The order of the run queue -/

namespace Entry

theorem before_iff {a b : Entry n} :
    a.before b = true ↔ a.runtime < b.runtime ∨ a.runtime = b.runtime ∧ a.arrival < b.arrival := by
  simp [before]

theorem before_trans {a b c : Entry n} (h : a.before b = true) (h' : b.before c = true) : a.before c = true := by
  rw [before_iff] at h h' ⊢
  omega

theorem insert_perm (x : Entry n) (l : List (Entry n)) : (insert x l).Perm (x :: l) := by
  induction l with
  | nil => exact .refl _
  | cons y l ih =>
    unfold insert
    split
    · exact .refl _
    · exact (ih.cons y).trans (.swap x y l)

/-- A place that arrives after all others is put where it belongs. -/
theorem pairwise_insert {x : Entry n} {l : List (Entry n)} (h : l.Pairwise fun a b => a.before b = true)
    (hx : ∀ y ∈ l, y.arrival < x.arrival) : (insert x l).Pairwise fun a b => a.before b = true := by
  induction l with
  | nil => exact List.pairwise_singleton _ _
  | cons y l ih =>
    obtain ⟨hy, hl⟩ := List.pairwise_cons.1 h
    unfold insert
    split
    · rename_i hbefore
      refine List.pairwise_cons.2 ⟨fun z hz => ?_, h⟩
      rcases List.mem_cons.1 hz with rfl | hz
      · exact hbefore
      · exact before_trans hbefore (hy z hz)
    · rename_i hbefore
      refine List.pairwise_cons.2 ⟨fun z hz => ?_, ih hl fun z hz => hx z (List.mem_cons_of_mem _ hz)⟩
      rcases List.mem_cons.1 ((insert_perm x l).mem_iff.1 hz) with rfl | hz
      · have := hx y (List.mem_cons_self ..)
        rw [before_iff] at hbefore ⊢
        omega
      · exact hy z hz

end Entry

/-- The place of an executor in a list of arrivals: the number of its last one. -/
def lastArrival (arrivals : List (Fin n)) (e : Fin n) : Nat :=
  arrivals.length - 1 - arrivals.reverse.idxOf e

theorem lastArrival_eq {before after : List (Fin n)} {e : Fin n} (h : e ∉ after) :
    lastArrival (before ++ e :: after) e = before.length := by
  have hidx : (before ++ e :: after).reverse.idxOf e = after.length := by
    simp [List.idxOf_append, h]
  rw [lastArrival, hidx]
  simp

namespace Meter

/-- The run queue is in order, and everybody in it is there since its last arrival. -/
structure Ordered (m : Meter n) : Prop where
  sorted : m.queue.Pairwise fun a b => a.before b = true
  next : m.nextArrival = m.arrivals.length
  stamped : ∀ q ∈ m.queue, ∃ before after,
    m.arrivals = before ++ q.executor :: after ∧ q.executor ∉ after ∧ before.length = q.arrival

variable {m m' : Meter n} {stage : Fin n → Stage}

theorem Ordered.keep (h : m.Ordered) (hq : m'.queue.Sublist m.queue) (hn : m'.nextArrival = m.nextArrival)
    (ha : m'.arrivals = m.arrivals) : m'.Ordered := by
  constructor
  case sorted => exact h.sorted.sublist hq
  case next => rw [hn, ha, h.next]
  case stamped =>
    rw [ha]
    exact fun q hmem => h.stamped q (hq.subset hmem)

theorem Ordered.push (h : m.Ordered) {e : Fin n} (he : e ∉ m.queue.map (·.executor)) : (m.push e).Ordered := by
  constructor
  case sorted =>
    refine Entry.pairwise_insert h.sorted fun q hq => ?_
    obtain ⟨before, after, ha, -, hlen⟩ := h.stamped q hq
    show q.arrival < m.nextArrival
    rw [h.next, ha, ← hlen]
    simp
  case next => simp [h.next]
  case stamped =>
    intro q hq
    rcases List.mem_cons.1 ((Entry.insert_perm _ _).mem_iff.1 hq) with rfl | hq
    · exact ⟨m.arrivals, [], rfl, List.not_mem_nil, h.next.symm⟩
    · obtain ⟨before, after, ha, hne, hlen⟩ := h.stamped q hq
      refine ⟨before, after ++ [e], by simp [ha], ?_, hlen⟩
      have hqe : q.executor ≠ e := fun heq => he (heq ▸ List.mem_map_of_mem hq)
      simp [hne, hqe]

/-- The run queue stays in order, whatever happens to it. -/
theorem Ordered.ticks (h : m.Ordered) (ht : m.Ticks stage m')
    (hapart : ∀ e ∈ m.running, e ∉ m.queue.map (·.executor)) : m'.Ordered := by
  cases ht with
  | rest => exact h
  | pass nanos => exact h.keep (.refl _) rfl rfl
  | drop queue hsub hdone => exact h.keep hsub rfl rfl
  | enter e hq hr =>
    have hc : ((m.charge m.running).allot e).Ordered :=
      h.keep (by simp [allot]) (by simp [allot]) (by simp [allot])
    exact hc.push (by simpa [allot] using hq)
  | take w skipped head rest hq hdone =>
    refine h.keep ?_ rfl rfl
    rw [hq]
    exact (List.sublist_cons_self head rest).trans (List.sublist_append_right ..)
  | leave e hr => exact h.keep (by simp) (by simp) (by simp)
  | requeue e hr =>
    have hl : (m.leave e).Ordered := h.keep (by simp) (by simp) (by simp)
    exact hl.push (by simpa using hapart e hr)

/-- An executor is taken from behind those that were unloaded. -/
theorem Ticks.taken (ht : m.Ticks stage m') {e : Fin n} {w : WorkerId} (h : m'.takings = m.takings ++ [(e, w)]) :
    ∃ skipped head rest, m.queue = skipped ++ head :: rest ∧ (∀ q ∈ skipped, stage q.executor = .done) ∧
      head.executor = e ∧ m' = m.take e w rest := by
  have hkeep : m'.takings ≠ m.takings := by
    intro heq
    simp [heq] at h
  cases ht with
  | take w' skipped head rest hq hdone =>
    obtain ⟨he, rfl⟩ : head.executor = e ∧ w' = w := by simpa [Meter.take] using h
    exact ⟨skipped, head, rest, hq, hdone, he, by rw [he]⟩
  | enter e' hq hr => exact absurd (by simp) hkeep
  | leave e' hr => exact absurd (by simp) hkeep
  | requeue e' hr => exact absurd (by simp) hkeep
  | _ => exact absurd rfl hkeep

end Meter

namespace Pool

/-! ## What every run keeps -/

/-- The threads are in order, the places of executors agree with their stages, and the run queue is in order and
carries the present virtual runtimes. -/
structure Regular (s : Pool n) : Prop where
  orderly : s.books.Orderly
  placed : ∀ e, (s.books.account e).Placed
  faithful : s.books.Faithful
  ordered : s.meter.Ordered

variable {s : Pool n}

theorem Regular.ticks (h : s.Regular) (a : Action n) : s.meter.Ticks s.books.stage (s.act a).meter :=
  act_ticks s a h.placed

/-- Nobody who runs is in the run queue. -/
theorem Regular.apart (h : s.Regular) {e : Fin n} (he : e ∈ s.running) : e ∉ s.queue.map (·.executor) := by
  have hsingle := (h.placed e).single
  rw [mem_running] at he
  rw [mem_queue]
  omega

theorem Regular.act (h : s.Regular) (a : Action n) : (s.act a).Regular := by
  have hm := act_moves s a
  constructor
  case orderly => exact h.orderly.moves hm
  case placed => exact fun e => (h.placed e).move (hm.account h.orderly e)
  case faithful => exact h.faithful.moves h.placed hm
  case ordered => exact h.ordered.ticks (h.ticks a) fun e => h.apart

theorem regular_create (config : SchedulerConfig) (context : Metrics.Context) (log : LogFilter)
    (hosts : Vector Host n) : (create config context log hosts).Regular := by
  have hb := books_create config context log hosts
  constructor
  case orderly => rw [hb]; exact .start
  case placed =>
    intro e
    rw [hb, Books.account_start]
    exact .start
  case faithful => rw [hb]; exact .start
  case ordered => constructor <;> simp [meter, create, arrivals]

/-- What is kept by every action of some kind, from a pool that is regular, is kept by every run of them. -/
theorem Regular.along {R : Pool n → Action n → Prop} {P : Pool n → Prop}
    (hact : ∀ s a, Regular s → P s → R s a → P (s.act a)) (h : s.Regular) (hs : P s) {actions : List (Action n)}
    (ha : s.Along R actions) : P (s.run actions) := by
  induction actions generalizing s with
  | nil => exact hs
  | cons a actions ih => exact ih (h.act a) (hact s a h hs ha.1) ha.2

theorem Regular.run (h : s.Regular) (actions : List (Action n)) : (s.run actions).Regular := by
  induction actions generalizing s with
  | nil => exact h
  | cons a actions ih => exact ih (h.act a)

/-! ## Who is taken -/

/-- The executors in the run queue. -/
def waiting (s : Pool n) : List (Fin n) := s.queue.map (·.executor)

/-- What decides between two executors that wait: the virtual runtime, and where that is equal the last arrival. -/
def rank (s : Pool n) (e : Fin n) : Nat ×ₗ Nat := toLex (s.runtime e, lastArrival s.arrivals e)

/-- Everybody in the run queue is there with its rank. -/
theorem Regular.rank_eq (h : s.Regular) {q : Entry n} (hq : q ∈ s.queue) :
    s.rank q.executor = toLex (q.runtime, q.arrival) := by
  obtain ⟨before, after, ha, hne, hlen⟩ := h.ordered.stamped q hq
  have hlast : lastArrival s.arrivals q.executor = q.arrival := by
    rw [show s.arrivals = _ from ha, lastArrival_eq hne, hlen]
  have hr : q.runtime = s.runtime q.executor := h.faithful.runtime q hq
  rw [rank, hlast, hr]

theorem Regular.rank_lt (h : s.Regular) {q q' : Entry n} (hq : q ∈ s.queue) (hq' : q' ∈ s.queue)
    (hb : q.before q' = true) : s.rank q.executor < s.rank q'.executor := by
  rw [h.rank_eq hq, h.rank_eq hq', Prod.Lex.toLex_lt_toLex]
  exact Entry.before_iff.1 hb

/-- A worker takes an executor: among those that are in the run queue then, it is the first. -/
structure Dispatches (s : Pool n) (e : Fin n) (s' : Pool n) : Prop where
  /-- It was in the run queue, and runs. -/
  moved : e ∈ s.waiting ∧ e ∈ s'.running
  /-- Everybody who is left in the run queue comes after it. -/
  first : ∀ e' ∈ s'.waiting, s'.rank e < s'.rank e'
  /-- Nobody's virtual runtime or arrival has changed. -/
  still : ∀ e', s'.rank e' = s.rank e'
  /-- Who was in the run queue is left there, but for those that were unloaded. -/
  left : ∀ e' ∈ s.waiting, e' = e ∨ e' ∈ s'.waiting ∨ (s.executor e').stage = .done

/-- A worker takes the first of those who wait. -/
theorem Regular.dispatches (hs : s.Regular) {a : Action n} {e : Fin n} {w : WorkerId}
    (h : (s.act a).takings = s.takings ++ [(e, w)]) : s.Dispatches e (s.act a) := by
  obtain ⟨skipped, head, rest, hq, hdone, rfl, hm⟩ := (hs.ticks a).taken h
  have hqueue : s.queue = skipped ++ head :: rest := hq
  have hqueue' : (s.act a).queue = rest := congrArg Meter.queue hm
  have hstill : ∀ e', (s.act a).rank e' = s.rank e' := by
    intro e'
    have hr : (s.act a).runtime = s.runtime := congrArg Meter.runtime hm
    have ha : (s.act a).arrivals = s.arrivals := congrArg Meter.arrivals hm
    rw [rank, rank, hr, ha]
  have hhead : head ∈ s.queue := by simp [hqueue]
  constructor
  case moved =>
    refine ⟨List.mem_map_of_mem hhead, ?_⟩
    rw [show (s.act a).running = _ from congrArg Meter.running hm]
    simp [Meter.take]
  case still => exact hstill
  case first =>
    intro e' he'
    obtain ⟨q, hqr, rfl⟩ := List.mem_map.1 he'
    rw [hqueue'] at hqr
    rw [hstill, hstill]
    refine hs.rank_lt hhead (by simp [hqueue, hqr]) ?_
    have hsorted := hs.ordered.sorted
    rw [hq] at hsorted
    exact (List.pairwise_cons.1 (List.pairwise_append.1 hsorted).2.1).1 q hqr
  case left =>
    intro e' he'
    obtain ⟨q, hqs, rfl⟩ := List.mem_map.1 he'
    rw [hqueue] at hqs
    rcases List.mem_append.1 hqs with hk | hk
    · exact Or.inr (Or.inr (hdone q hk))
    · rcases List.mem_cons.1 hk with rfl | hk
      · exact Or.inl rfl
      · exact Or.inr (Or.inl (by rw [waiting, hqueue']; exact List.mem_map_of_mem hk))

/-- A worker always takes the executor with the least virtual runtime, and of equals the one that came first. -/
theorem run_dispatches (config : SchedulerConfig) (context : Metrics.Context) (log : LogFilter)
    (hosts : Vector Host n) (actions : List (Action n)) (a : Action n) (e : Fin n) (w : WorkerId)
    (h : (((create config context log hosts).run actions).act a).takings =
      ((create config context log hosts).run actions).takings ++ [(e, w)]) :
    ((create config context log hosts).run actions).Dispatches e
      (((create config context log hosts).run actions).act a) := by
  have hs := (regular_create config context log hosts).run actions
  exact hs.dispatches h

/-- A scheduler with some executors, which all enter the run queue with the same share. -/
def team (k : Nat) : Pool k :=
  create { basePeriod := .ofMillis 5 } lone.context none
    (.ofFn fun e => { computer := ⟨.ofNat e.val⟩, sink := .nowhere })

/-- A thread takes a number of steps. -/
def strides (t : ThreadId) (k : Nat) : List (Action n) := List.replicate k (.step t)

/-- The first executor runs on thread 2 when the three others are submitted, and it is submitted again. The second is
unloaded by thread 7, which has still to take it out of the run queue when the slice has ended and the worker is about to
look for the next executor. -/
def crowded : List (Action 4) :=
  List.flatten [[.call (.submit 0)], strides 0 2, strides 2 10, [.call (.submit 1)], strides 3 2, [.call (.submit 2)],
    strides 4 2, [.call (.submit 3)], strides 5 2, [.call (.submit 0)], strides 6 1, [.call (.unload 1)], strides 7 1,
    [.advance 40000000, .work 2 (.finish .ok)], strides 2 6]

/-- The second executor is passed over, and of the third and the fourth, which have run for equally long, the third
is taken. -/
theorem dispatches_crowded :
    (((team 4).run crowded).act (.step 2)).takings = ((team 4).run crowded).takings ++ [(2, 0)] ∧
      ((team 4).run crowded).waiting = [1, 2, 3, 0] ∧
      ((team 4).run crowded).runtime 2 = ((team 4).run crowded).runtime 3 ∧
      (((team 4).run crowded).act (.step 2)).waiting = [3, 0] ∧
      ((team 4).run crowded).Dispatches 2 (((team 4).run crowded).act (.step 2)) := by
  have h : (((team 4).run crowded).act (.step 2)).takings = ((team 4).run crowded).takings ++ [(2, 0)] := by
    decide +kernel
  refine ⟨h, by decide +kernel, by decide +kernel, by decide +kernel, ?_⟩
  exact run_dispatches _ _ _ _ crowded (.step 2) 2 0 h

end Pool

end FairShare.Scheduler

import FairShare.Proofs.Runtime

/-!
# The level of the run queue

As long as no charge leaves the range of a word, nobody who waits or runs is further behind the minimum than half a
base period. The minimum itself follows the least of those who wait, who run or who just stopped running, so it only
leaves behind those who are asleep; and these are lifted when they come back.
-/

namespace FairShare.Scheduler

variable {n : Nat}

/-- The least share of a valid configuration is not empty, and no longer than what is shared out. -/
theorem SchedulerConfig.periods_of_valid {config : SchedulerConfig} (h : config.validate = .ok ()) :
    0 < config.minPeriod.nanos ∧ config.minPeriod.nanos ≤ config.basePeriod.nanos := by
  unfold SchedulerConfig.validate at h
  split_ifs at h with hworkers hbase hmin hmonitor hle
  have hpos : config.minPeriod.nanos ≠ 0 := by simpa [Duration.isZero] using hmin
  exact ⟨Nat.pos_of_ne_zero hpos, Nat.not_lt.1 hle⟩

namespace Meter

variable {m m' : Meter n} {l : List (Fin n)} {e : Fin n} {stage : Fin n → Stage}

/-- How far those who wait or run may be behind the minimum. -/
def slack (m : Meter n) : Nat := clampWord m.config.basePeriod.nanos / 2

/-- Nobody who waits or runs is far behind the minimum. -/
structure Level (m : Meter n) : Prop where
  waiting : ∀ e ∈ m.queue.map (·.executor), m.minimum ≤ m.runtime e + m.slack
  running : ∀ e ∈ m.running, m.minimum ≤ m.runtime e + m.slack

theorem push_waiting {e e' : Fin n} :
    e' ∈ (m.push e).queue.map (·.executor) ↔ e' = e ∨ e' ∈ m.queue.map (·.executor) := by
  have hp := (Entry.insert_perm ⟨m.runtime e, m.nextArrival, e⟩ m.queue).map (·.executor)
  exact hp.mem_iff.trans List.mem_cons

/-- Who is charged without an overflow pays in full. -/
theorem fits_of_not_overflows (hc : m'.charges = m.charges ++ l.map fun e => (e, m.due e))
    (hover : ∀ e, ¬m.Overflows m' e) : ∀ e ∈ l, m.runtime e + m.due e ≤ maxWord := fun e he =>
  Nat.not_lt.1 fun hlt => hover e ((overflows_iff hc).2 ⟨he, hlt⟩)

section

variable (ho : m.Ordered) (hf : ∀ q ∈ m.queue, q.runtime = m.runtime q.executor)

include ho hf

/-- Charging leaves nobody who waits or pays behind who was not. -/
theorem level_charge (hl : ∀ e ∈ l, e ∉ m.queue.map (·.executor))
    (hfit : ∀ e ∈ l, m.runtime e + m.due e ≤ maxWord) (he : e ∈ m.queue.map (·.executor) ∨ e ∈ l) {k : Nat}
    (hk : m.minimum ≤ m.runtime e + k) : (m.charge l).minimum ≤ (m.charge l).runtime e + k := by
  have hle : m.runtime e ≤ (m.charge l).runtime e := by
    rw [charge_runtime]
    split
    · rename_i hmem
      rw [wrapWord_of_le (hfit e hmem)]
      exact Nat.le_add_right ..
    · exact Nat.le_refl _
  rcases m.charge_minimum l with hm | ⟨-, hm, -⟩
  · omega
  · have hleast : (m.pay l).least l ≤ (m.charge l).runtime e := by
      rw [charge_eq]
      rcases he with hwait | hmem
      · obtain ⟨q, hq, rfl⟩ := List.mem_map.1 hwait
        have hfree : q.executor ∉ l := fun h => hl _ h (List.mem_map_of_mem hq)
        have hp : (m.pay l).Ordered := ho.keep (.refl _) rfl rfl
        have hr : (m.pay l).runtime q.executor = q.runtime := (if_neg hfree).trans (hf q hq).symm
        exact Nat.le_trans (hp.least_le hq) (Nat.le_of_eq hr.symm)
      · exact least_le_runtime hmem
    omega

variable (hapart : ∀ e ∈ m.running, e ∉ m.queue.map (·.executor))

include hapart

/-- When an executor leaves its worker, neither it nor anybody who waits or runs is far behind. -/
theorem Level.leave (hv : m.Level) (hr : e ∈ m.running) (hc : m'.charges = (m.leave e).charges)
    (hover : ∀ e, ¬m.Overflows m' e) {e' : Fin n} (he' : e' ∈ m.queue.map (·.executor) ∨ e' ∈ m.running) :
    (m.leave e).minimum ≤ (m.leave e).runtime e' + m.slack := by
  have hfit := fits_of_not_overflows (hc.trans (m.leave_charges e)) hover
  have hkeep : { m with running := m.running.filter (· != e) }.Ordered := ho.keep (.refl _) rfl rfl
  refine level_charge hkeep hf (fun x hx => hapart x ((mem_leaving hr).1 hx)) hfit ?_ ?_
  · exact he'.imp_right (mem_leaving hr).2
  · exact he'.elim (hv.waiting e') (hv.running e')

/-- When an executor enters the run queue, neither it nor anybody who waits or runs is far behind. -/
theorem Level.enter (hv : m.Level) (hr : e ∉ m.running) (hmin : (m.enter e).minimum ≤ maxWord)
    (hover : ∀ e', ¬m.Overflows (m.enter e) e') {e' : Fin n}
    (he' : e' = e ∨ e' ∈ m.queue.map (·.executor) ∨ e' ∈ m.running) :
    (m.enter e).minimum ≤ (m.enter e).runtime e' + m.slack := by
  by_cases heq : e' = e
  · -- Whoever enters is lifted, whatever the virtual runtime it comes with.
    subst heq
    have hle := le_entryRuntime_add (m.runtime e') (m.charge m.running).scaledPeriod m.config.basePeriod hmin
    simpa [enter_runtime, hr, slack] using hle
  · have hfit := fits_of_not_overflows (l := m.running) (by simp) hover
    have he' := he'.resolve_left heq
    have hle := level_charge ho hf hapart hfit he' (he'.elim (hv.waiting e') (hv.running e'))
    simpa [enter_runtime, heq] using hle

theorem Level.ticks (hv : m.Level) (hw : m.Words) (h : m.Ticks stage m') (hover : ∀ e, ¬m.Overflows m' e) :
    m'.Level := by
  have hmin := (hw.ticks h).minimum
  have hslack : m'.slack = m.slack := by unfold slack; rw [h.config]
  cases h with
  | rest => exact hv
  | pass nanos => exact ⟨hv.waiting, hv.running⟩
  | drop queue hsub hdone => exact ⟨fun e he => hv.waiting e ((hsub.map _).subset he), hv.running⟩
  | take w skipped head rest hq hdone =>
    constructor
    case waiting =>
      intro e he
      refine hv.waiting e ?_
      rw [hq, List.map_append, List.map_cons]
      exact List.mem_append_right _ (List.mem_cons_of_mem _ he)
    case running =>
      intro e he
      rcases List.mem_append.1 he with he | he
      · exact hv.running e he
      · refine hv.waiting e ?_
        rw [List.mem_singleton.1 he, hq]
        simp
  | enter e hq hr =>
    constructor
    case waiting =>
      intro e' he'
      rw [hslack]
      rw [Meter.enter, push_waiting] at he'
      exact hv.enter ho hf hapart hr hmin hover (he'.imp_right fun h => Or.inl (by simpa [allot] using h))
    case running =>
      intro e' he'
      rw [hslack]
      exact hv.enter ho hf hapart hr hmin hover
        (Or.inr (Or.inr (by simpa using he')))
  | leave e hr =>
    constructor
    case waiting =>
      intro e' he'
      rw [hslack]
      exact hv.leave ho hf hapart hr rfl hover (Or.inl (by simpa using he'))
    case running =>
      intro e' he'
      rw [hslack]
      have he' : e' ∈ m.running.filter (· != e) := by simpa using he'
      exact hv.leave ho hf hapart hr rfl hover (Or.inr (List.mem_filter.1 he').1)
  | requeue e hr =>
    constructor
    case waiting =>
      intro e' he'
      rw [hslack]
      refine hv.leave ho hf hapart hr rfl hover ?_
      rcases push_waiting.1 he' with rfl | he'
      · exact Or.inr hr
      · exact Or.inl (by simpa using he')
    case running =>
      intro e' he'
      rw [hslack]
      have he' : e' ∈ m.running.filter (· != e) := by simpa using he'
      exact hv.leave ho hf hapart hr rfl hover (Or.inr (List.mem_filter.1 he').1)

end

end Meter

namespace Pool

theorem config_act (s : Pool n) (a : Action n) (h : s.Regular) : (s.act a).config = s.config := (h.ticks a).config

theorem meter_create (config : SchedulerConfig) (context : Metrics.Context) (log : LogFilter)
    (hosts : Vector Host n) :
    (create config context log hosts).meter.Words ∧ (create config context log hosts).meter.Fresh ∧
      (create config context log hosts).meter.Level := by
  refine ⟨⟨fun e => ?_, ?_⟩, ⟨fun e => ?_, ?_⟩, ⟨?_, ?_⟩⟩
  all_goals simp [meter, create, runtime, executor, Executor.create, arrivals]

/-- The level that the run queue keeps, also when an action comes. -/
structure KeepsLevel (s : Pool n) (a : Action n) : Prop where
  /-- The minimum never sinks. -/
  minimum : s.minimum ≤ (s.act a).minimum
  /-- Nobody who waits or runs is further behind the minimum than half a base period. -/
  active : ∀ e, e ∈ s.waiting ∨ e ∈ s.running →
    s.minimum - clampWord s.config.basePeriod.nanos / 2 ≤ s.runtime e
  /-- A virtual runtime is zero exactly until its executor enters the run queue. -/
  zero : ∀ e, s.runtime e = 0 ↔ e ∉ s.arrivals
  /-- Whoever enters the run queue for the first time starts a share behind the minimum. -/
  first : ∀ e, (s.act a).arrivals = s.arrivals ++ [e] → e ∉ s.arrivals →
    (s.act a).runtime e = clampWord ((s.act a).minimum + clampWord s.scaledPeriod.nanos)
  /-- Whoever comes back to it keeps its own virtual runtime, but for being lifted. -/
  later : ∀ e, (s.act a).arrivals = s.arrivals ++ [e] → e ∈ s.arrivals → e ∉ s.running →
    (s.act a).runtime e = max (s.runtime e) ((s.act a).minimum - clampWord s.config.basePeriod.nanos / 2)
  /-- Whoever is queued again by its worker has only been charged. -/
  again : ∀ e, (s.act a).arrivals = s.arrivals ++ [e] → e ∈ s.running →
    (s.act a).runtime e = wrapWord (s.runtime e + s.meter.due e)

/-- The run queue keeps its level in every run in which no charge leaves the range of a word. -/
theorem run_keepsLevel (config : SchedulerConfig) (context : Metrics.Context) (log : LogFilter)
    (hosts : Vector Host n) (actions : List (Action n)) (hc : config.validate = .ok ())
    (hfits : (create config context log hosts).Along (fun s a => ∀ e, ¬s.Overflows a e) actions) (a : Action n) :
    ((create config context log hosts).run actions).KeepsLevel a := by
  have hstart := regular_create config context log hosts
  have hs := hstart.run actions
  have hall := hstart.along (R := fun s a => ∀ e, ¬s.Overflows a e) (P := fun s => s.config = config ∧
    s.meter.Words ∧ s.meter.Fresh ∧ s.meter.Level) ?_ ⟨rfl, meter_create config context log hosts⟩ hfits
  · generalize (create config context log hosts).run actions = s at hs hall
    obtain ⟨-, hwords, hfresh, hlevel⟩ := hall
    have ht := hs.ticks a
    have hentered : ∀ e, (s.act a).arrivals = s.arrivals ++ [e] → e ∉ s.running →
        (s.act a).runtime e = entryRuntime (s.runtime e) (s.act a).minimum s.scaledPeriod s.config.basePeriod := by
      intro e harr hrun
      cases ht.fare e with
      | free hr ho ha => exact absurd harr ha
      | paid he hr ho => exact absurd he hrun
      | entered he ha hr ho => exact hr
    constructor
    case minimum => exact ht.minimum
    case active =>
      intro e he
      have hle : s.minimum ≤ s.runtime e + clampWord s.config.basePeriod.nanos / 2 :=
        he.elim (hlevel.waiting e) (hlevel.running e)
      omega
    case zero => exact hfresh.zero
    case first =>
      intro e harr hnew
      rw [hentered e harr fun hrun => hnew (hfresh.known e hrun), show s.runtime e = 0 from (hfresh.zero e).2 hnew,
        entryRuntime_zero]
    case later =>
      intro e harr hold hrun
      rw [hentered e harr hrun]
      exact entryRuntime_of_ne_zero (fun hz => (hfresh.zero e).1 hz hold) _ _ _
    case again =>
      intro e harr hrun
      cases ht.fare e with
      | free hr ho ha => exact absurd harr ha
      | paid he hr ho => exact hr
      | entered he ha hr ho => exact absurd hrun he
  · intro s a hreg ⟨hconfig, hwords, hfresh, hlevel⟩ hover
    have ht := hreg.ticks a
    have hover : ∀ e, ¬s.meter.Overflows (s.act a).meter e := hover
    refine ⟨(config_act s a hreg).trans hconfig, hwords.ticks ht, ?_, ?_⟩
    · refine hfresh.ticks ht hreg.ordered ?_ hover
      rw [show s.meter.config = config from hconfig]
      exact (SchedulerConfig.periods_of_valid hc).1
    · exact Meter.Level.ticks hreg.ordered hreg.faithful.runtime (fun e => hreg.apart) hlevel hwords ht hover

/-- The first executor runs for a moment and falls asleep, while the second runs for much longer. Thread 4 is about to put
the first one into the run queue again. -/
def asleep : List (Action 2) :=
  List.flatten [[.call (.submit first)], strides 0 2, strides 2 10, [.advance 1000000, .call (.submit second)],
    strides 3 2, [.work 2 (.finish .ok)], strides 2 7, [.advance 400000000, .call (.submit first)], strides 4 1]

/-- It is lifted to half a base period behind the minimum. -/
theorem keepsLevel_asleep :
    ({ basePeriod := .ofMillis 5 } : SchedulerConfig).validate = .ok () ∧
      (team 2).Along (fun s a => ∀ e, ¬s.Overflows a e) asleep ∧ ((team 2).run asleep).KeepsLevel (.step 4) ∧
      (((team 2).run asleep).act (.step 4)).arrivals = ((team 2).run asleep).arrivals ++ [0] ∧
      ((team 2).run asleep).runtime 0 = 6000000 ∧ (((team 2).run asleep).act (.step 4)).runtime 0 = 408500000 ∧
      (((team 2).run asleep).act (.step 4)).minimum = 411000000 := by
  have hc : ({ basePeriod := .ofMillis 5 } : SchedulerConfig).validate = .ok () := by decide +kernel
  have hfits : (team 2).Along (fun s a => ∀ e, ¬s.Overflows a e) asleep := by decide +kernel
  exact ⟨hc, hfits, run_keepsLevel _ _ _ _ asleep hc hfits (.step 4), by decide +kernel⟩

end Pool

end FairShare.Scheduler

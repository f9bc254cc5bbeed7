import FairShare.Proofs.Level

/-!
# The range of virtual runtimes

Entering the run queue stops at the largest word, but a charge is added without regard to it, and comes round past
zero. How far virtual runtimes can get is bounded: by a share for each executor that ever entered the run queue, and
by the time that has passed. No charge leaves the range of a word before that bound does.
-/

namespace FairShare.Scheduler

variable {n : Nat}

namespace Meter

variable {m m' : Meter n} {l : List (Fin n)} {e : Fin n} {stage : Fin n → Stage}

/-- A share for each executor that ever entered the run queue. -/
def headStart (m : Meter n) : Nat := m.arrivals.toFinset.card * clampWord m.config.basePeriod.nanos

/-- Nobody has run for longer than its head start and the time that has passed, up to when it is charged if it runs. -/
structure Bounded (m : Meter n) : Prop where
  still : ∀ e ∉ m.running, m.runtime e ≤ m.headStart + m.now
  running : ∀ e ∈ m.running, m.chargedAt e ≤ m.now ∧ m.runtime e ≤ m.headStart + m.chargedAt e
  minimum : m.minimum ≤ m.headStart + m.now

theorem Bounded.runtime_le (h : m.Bounded) (e : Fin n) : m.runtime e ≤ m.headStart + m.now := by
  by_cases he : e ∈ m.running
  · obtain ⟨hc, hr⟩ := h.running e he
    exact Nat.le_trans hr (Nat.add_le_add_left hc _)
  · exact h.still e he

/-- Whoever is charged pays for time that has passed. -/
theorem runtime_add_due_le (hc : m.chargedAt e ≤ m.now) (hr : m.runtime e ≤ m.headStart + m.chargedAt e) :
    m.runtime e + m.due e ≤ m.headStart + m.now :=
  calc m.runtime e + m.due e
      ≤ (m.headStart + m.chargedAt e) + (m.now - m.chargedAt e) := Nat.add_le_add hr (m.due_le e)
    _ = m.headStart + m.now := by rw [Nat.add_assoc, Nat.add_sub_cancel' hc]

theorem Bounded.keep (h : m.Bounded) (hr : m'.runtime = m.runtime) (hrun : m'.running = m.running)
    (hc : m'.chargedAt = m.chargedAt) (hm : m'.minimum = m.minimum) (hs : m.headStart ≤ m'.headStart)
    (hn : m.now ≤ m'.now) : m'.Bounded := by
  have hadd := Nat.add_le_add hs hn
  constructor
  case still =>
    rw [hr, hrun]
    exact fun e he => Nat.le_trans (h.still e he) hadd
  case running =>
    rw [hr, hrun, hc]
    intro e he
    obtain ⟨h1, h2⟩ := h.running e he
    exact ⟨Nat.le_trans h1 hn, Nat.le_trans h2 (Nat.add_le_add_right hs _)⟩
  case minimum =>
    rw [hm]
    exact Nat.le_trans h.minimum hadd

/-- Charging keeps the bound, where that is a word. -/
theorem bounded_charge (hrun : ∀ e ∈ l, m.chargedAt e ≤ m.now ∧ m.runtime e ≤ m.headStart + m.chargedAt e)
    (hstill : ∀ e ∉ l, m.runtime e ≤ m.headStart + m.now) (hmin : m.minimum ≤ m.headStart + m.now)
    (hl : ∀ e ∈ m.running, e ∈ l) (hf : ∀ q ∈ m.queue, q.runtime = m.runtime q.executor)
    (hle : m.headStart + m.now ≤ maxWord) : (m.charge l).Bounded := by
  have hs : (m.charge l).headStart = m.headStart := by simp [headStart]
  have hn : (m.charge l).now = m.now := by simp [now]
  have hruntime : ∀ e, (m.charge l).runtime e ≤ m.headStart + m.now := by
    intro e
    rw [charge_runtime]
    split
    · rename_i he
      have hsum := runtime_add_due_le (hrun e he).1 (hrun e he).2
      rwa [wrapWord_of_le (Nat.le_trans hsum hle)]
    · rename_i he
      exact hstill e he
  constructor
  case still => exact fun e _ => by rw [hs, hn]; exact hruntime e
  case running =>
    intro e he
    rw [charge_running] at he
    rw [charge_chargedAt, if_pos (hl e he), hs, hn]
    exact ⟨Nat.le_refl _, hruntime e⟩
  case minimum =>
    rw [hs, hn]
    rcases m.charge_minimum l with hm | ⟨-, hm, hlt⟩
    · rwa [hm]
    · -- The minimum follows somebody who waits or pays, for without anybody the least is no word below the largest.
      rw [hm] at hlt ⊢
      cases hl : l with
      | cons e rest =>
        have hmem : e ∈ l := by simp [hl]
        have hr := hruntime e
        rw [charge_eq] at hr
        rw [← hl]
        exact Nat.le_trans (least_le_runtime hmem) hr
      | nil =>
        cases hq : m.queue with
        | nil => simp [least, pay, hl, hq] at hlt
        | cons head rest =>
          have hhead : head ∈ m.queue := by simp [hq]
          have hr := hstill head.executor (by simp [hl])
          rw [← hf head hhead] at hr
          simpa [least, pay, hq] using hr

theorem headStart_push (m : Meter n) (e : Fin n) :
    (m.push e).headStart = m.headStart + if e ∈ m.arrivals then 0 else clampWord m.config.basePeriod.nanos := by
  have hset : (m.push e).arrivals.toFinset = insert e m.arrivals.toFinset := by
    ext x
    simp
  have hconfig : (m.push e).config = m.config := rfl
  unfold headStart
  rw [hset, hconfig]
  split
  · rename_i he
    rw [Finset.insert_eq_of_mem (by simpa using he), Nat.add_zero]
  · rename_i he
    rw [Finset.card_insert_of_notMem (by simpa using he), Nat.succ_mul]

theorem Bounded.push (h : m.Bounded) (e : Fin n) : (m.push e).Bounded := by
  refine h.keep rfl rfl rfl rfl ?_ (Nat.le_refl _)
  rw [headStart_push]
  exact Nat.le_add_right ..

/-- The share that an executor is set back by is no longer than a base period. -/
theorem scaledPeriod_le (hc : m.config.minPeriod.nanos ≤ m.config.basePeriod.nanos) :
    clampWord m.scaledPeriod.nanos ≤ clampWord m.config.basePeriod.nanos := by
  refine clampWord_mono ?_
  unfold scaledPeriod Duration.max
  split
  · exact hc
  · exact Nat.div_le_self ..

/-- Whoever enters the run queue for the first time has a head start of its own, and nobody else is set back. -/
theorem Bounded.allot_push (h : m.Bounded) (he : e ∉ m.running) (hz : m.runtime e = 0 → e ∉ m.arrivals)
    (hc : m.config.minPeriod.nanos ≤ m.config.basePeriod.nanos) : ((m.allot e).push e).Bounded := by
  have hs : ((m.allot e).push e).headStart =
      m.headStart + if e ∈ m.arrivals then 0 else clampWord m.config.basePeriod.nanos := headStart_push (m.allot e) e
  have hle : m.headStart ≤ ((m.allot e).push e).headStart := by
    rw [hs]
    exact Nat.le_add_right ..
  have hn : ((m.allot e).push e).now = m.now := rfl
  constructor
  case still =>
    intro e' he'
    rw [hn]
    by_cases heq : e' = e
    · subst heq
      have hr : ((m.allot e').push e').runtime e' =
          entryRuntime (m.runtime e') m.minimum m.scaledPeriod m.config.basePeriod := if_pos rfl
      rw [hr, hs]
      have hmin := h.minimum
      have hrun := h.still e' he
      have hperiod := scaledPeriod_le hc
      by_cases h0 : m.runtime e' = 0
      · rw [h0, entryRuntime_zero, if_neg (hz h0)]
        unfold clampWord at hperiod ⊢
        omega
      · rw [entryRuntime_of_ne_zero h0]
        omega
    · have hr : ((m.allot e).push e).runtime e' = m.runtime e' := if_neg heq
      rw [hr]
      exact Nat.le_trans (h.still e' he') (Nat.add_le_add_right hle _)
  case running =>
    intro e' he'
    have hne : e' ≠ e := fun heq => he (heq ▸ he')
    have hr : ((m.allot e).push e).runtime e' = m.runtime e' := if_neg hne
    obtain ⟨h1, h2⟩ := h.running e' he'
    rw [hr]
    exact ⟨h1, Nat.le_trans h2 (Nat.add_le_add_right hle _)⟩
  case minimum => exact Nat.le_trans h.minimum (Nat.add_le_add_right hle _)

theorem Bounded.take (h : m.Bounded) (e : Fin n) (w : WorkerId) (rest : List (Entry n)) :
    (m.take e w rest).Bounded := by
  constructor
  case still => exact fun e' he' => h.still e' fun hmem => he' (List.mem_append_left _ hmem)
  case running =>
    intro e' he'
    by_cases heq : e' = e
    · have hc : (m.take e w rest).chargedAt e' = m.now := if_pos heq
      rw [hc]
      exact ⟨Nat.le_refl _, h.runtime_le e'⟩
    · have hc : (m.take e w rest).chargedAt e' = m.chargedAt e' := if_neg heq
      rw [hc]
      exact h.running e' ((List.mem_append.1 he').resolve_right (by simpa using heq))
  case minimum => exact h.minimum

/-- The bound is kept as long as it is a word. -/
theorem Bounded.ticks (h : m.Bounded) (ht : m.Ticks stage m') (hf : ∀ q ∈ m.queue, q.runtime = m.runtime q.executor)
    (hfresh : m.Fresh) (hc : m.config.minPeriod.nanos ≤ m.config.basePeriod.nanos)
    (hle : m.headStart + m.now ≤ maxWord) : m'.Bounded := by
  have hleave : ∀ e ∈ m.running, (m.leave e).Bounded := by
    intro e he
    have hmem := @mem_leaving n m e he
    refine bounded_charge (m := { m with running := m.running.filter (· != e) }) ?_ ?_ h.minimum ?_ hf hle
    · exact fun e' he' => h.running e' (hmem.1 he')
    · exact fun e' he' => h.still e' (mt hmem.2 he')
    · exact fun e' he' => List.mem_append_left _ he'
  cases ht with
  | rest => exact h
  | pass nanos => exact h.keep rfl rfl rfl rfl (Nat.le_refl _) (clampWord_mono (Nat.le_add_right ..))
  | drop queue hsub hdone => exact h.keep rfl rfl rfl rfl (Nat.le_refl _) (Nat.le_refl _)
  | take w skipped head rest hq hdone => exact h.take head.executor w rest
  | enter e hq hr =>
    have hcharge := bounded_charge h.running h.still h.minimum (fun _ => id) hf hle
    refine hcharge.allot_push (by simpa using hr) (fun hz => ?_) (by simpa using hc)
    rw [charge_runtime, if_neg hr] at hz
    simpa using (hfresh.zero e).1 hz
  | leave e hr => exact hleave e hr
  | requeue e hr => exact (hleave e hr).push e

/-- No charge leaves the range of a word before the bound does. -/
theorem Bounded.fits (h : m.Bounded) (ht : m.Ticks stage m') (hle : m.headStart + m.now ≤ maxWord) (e : Fin n) :
    ¬m.Overflows m' e := by
  cases ht.fare e with
  | free hr ho ha => exact ho
  | entered he ha hr ho => exact ho
  | paid he hr ho =>
    obtain ⟨hc, hrun⟩ := h.running e he
    rw [ho]
    exact Nat.not_lt.2 (Nat.le_trans (runtime_add_due_le hc hrun) hle)

/-- The bound only grows. -/
theorem Ticks.headStart_le (ht : m.Ticks stage m') : m.headStart ≤ m'.headStart ∧ m.now ≤ m'.now := by
  have hs : m.arrivals ⊆ m'.arrivals := by
    rcases ht.arrivals with ha | ⟨e, ha⟩ <;> simp [ha]
  have hcard : m.arrivals.toFinset.card ≤ m'.arrivals.toFinset.card :=
    Finset.card_le_card fun e he => by simpa using hs (by simpa using he)
  refine ⟨?_, clampWord_mono ht.clock_le⟩
  unfold headStart
  rw [ht.config]
  exact Nat.mul_le_mul_right _ hcard

end Meter

namespace Pool

/-- A virtual runtime sinks exactly where a charge leaves the range of a word, and no charge does as long as a base period
for each executor that ever entered the run queue, and the time that has passed, are a word together. -/
theorem run_sinks (config : SchedulerConfig) (context : Metrics.Context) (log : LogFilter)
    (hosts : Vector Host n) (actions : List (Action n)) (hc : config.validate = .ok ()) (a : Action n) (e : Fin n) :
    let s := (create config context log hosts).run actions
    ((s.act a).runtime e < s.runtime e ↔ s.Overflows a e) ∧
      (s.arrivals.toFinset.card * clampWord config.basePeriod.nanos + s.now ≤ maxWord → ¬s.Overflows a e) := by
  obtain ⟨hpos, hperiods⟩ := SchedulerConfig.periods_of_valid hc
  obtain ⟨hwords, hfresh, -⟩ := meter_create config context log hosts
  have hstart := regular_create config context log hosts
  have hs := hstart.run actions
  have hall := hstart.along (R := fun _ _ => True) (P := fun s => s.config = config ∧ s.meter.Words ∧
    (s.meter.headStart + s.now ≤ maxWord → s.meter.Fresh ∧ s.meter.Bounded)) ?_ ⟨rfl, hwords, fun _ => ⟨hfresh, ?_⟩⟩
    (along_true _ actions)
  · intro s
    obtain ⟨hconfig, hw, hbound⟩ := hall
    have ht := hs.ticks a
    refine ⟨ht.sinks_iff hw e, fun hle => ?_⟩
    have hle : s.meter.headStart + s.now ≤ maxWord := by
      rw [← hconfig] at hle
      exact hle
    exact (hbound hle).2.fits ht hle e
  · intro s a hreg ⟨hconfig, hw, hbound⟩ _
    have ht := hreg.ticks a
    have hcfg : s.meter.config = config := hconfig
    refine ⟨(config_act s a hreg).trans hconfig, hw.ticks ht, fun hle => ?_⟩
    have hle : s.meter.headStart + s.meter.now ≤ maxWord :=
      Nat.le_trans (Nat.add_le_add ht.headStart_le.1 ht.headStart_le.2) hle
    obtain ⟨hf, hb⟩ := hbound hle
    refine ⟨hf.ticks ht hreg.ordered (by rw [hcfg]; exact hpos) (hb.fits ht hle), ?_⟩
    exact hb.ticks ht hreg.faithful.runtime hf (by rw [hcfg]; exact hperiods) hle
  · constructor <;> simp [meter, create, runtime, executor, Executor.create]

theorem sinks_asleep :
    let config : SchedulerConfig := { basePeriod := .ofMillis 5 }
    let s := (team 2).run asleep
    config.validate = .ok () ∧ s.arrivals.toFinset.card * clampWord config.basePeriod.nanos + s.now ≤ maxWord ∧
      ((s.act (.step 4)).runtime 1 < s.runtime 1 ↔ s.Overflows (.step 4) 1) ∧ ¬s.Overflows (.step 4) 1 := by
  intro config s
  have hc : config.validate = .ok () := by decide +kernel
  have hle : s.arrivals.toFinset.card * clampWord config.basePeriod.nanos + s.now ≤ maxWord := by decide +kernel
  have h : ((s.act (.step 4)).runtime 1 < s.runtime 1 ↔ s.Overflows (.step 4) 1) ∧
      (s.arrivals.toFinset.card * clampWord config.basePeriod.nanos + s.now ≤ maxWord →
        ¬s.Overflows (.step 4) 1) := run_sinks config _ _ _ asleep hc (.step 4) 1
  exact ⟨hc, hle, h.1, h.2 hle⟩

/-- A base period of a whole word of nanoseconds. -/
def vast : SchedulerConfig := { basePeriod := .ofClamped maxWord }

/-- A scheduler with two executors that share it out. -/
def vastPair : Pool 2 := create vast lone.context none both

/-- The first executor, which entered the run queue at the end of the range, has run for 10 ns when thread 3 is about to
put the second one into the run queue. -/
def brimming : List (Action 2) :=
  List.flatten [[.call (.submit first)], strides 0 2, strides 2 10, [.advance 10, .call (.submit second)], strides 3 1]

/-- It is charged beyond the range of a word, and is then the one that ran least. -/
theorem runtime_wraps :
    vast.validate = .ok () ∧ (vastPair.run brimming).Overflows (.step 3) 0 ∧
      (vastPair.run brimming).runtime 0 = maxWord ∧ ((vastPair.run brimming).act (.step 3)).runtime 0 = 9 := by
  decide +kernel

end Pool

end FairShare.Scheduler

import FairShare.Proofs.Dispatch

/-!
# Virtual runtimes

How virtual runtimes and the minimum move. Only those who run are charged; whoever enters the run queue is lifted to
its entry runtime; and the minimum never sinks. A charge is added without regard to the range of a word, so a virtual
runtime sinks exactly where that range is left.
-/

namespace FairShare.Scheduler

variable {n : Nat}

theorem le_foldl_min {α : Type} {f : α → Nat} {k a : Nat} {l : List α} :
    k ≤ l.foldl (fun least x => min least (f x)) a ↔ k ≤ a ∧ ∀ x ∈ l, k ≤ f x := by
  induction l generalizing a with
  | nil => simp
  | cons x l ih => rw [List.foldl_cons, ih, Nat.le_min, List.forall_mem_cons, and_assoc]

/-- An addition comes round past zero where the sum is no word. -/
theorem wrapWord_add_lt_iff {a b : Nat} (ha : a ≤ maxWord) (hb : b ≤ maxWord) :
    wrapWord (a + b) < a ↔ maxWord < a + b := by
  unfold maxWord at ha hb
  unfold wrapWord maxWord
  omega

/-- Nobody is set back by entering the run queue. -/
theorem le_entryRuntime (current minimum : Nat) (scaledPeriod basePeriod : Duration) :
    current ≤ entryRuntime current minimum scaledPeriod basePeriod := Nat.le_max_left ..

theorem entryRuntime_zero (minimum : Nat) (scaledPeriod basePeriod : Duration) :
    entryRuntime 0 minimum scaledPeriod basePeriod = clampWord (minimum + clampWord scaledPeriod.nanos) := by
  simp [entryRuntime]

theorem entryRuntime_of_ne_zero {current : Nat} (h : current ≠ 0) (minimum : Nat) (scaledPeriod basePeriod : Duration) :
    entryRuntime current minimum scaledPeriod basePeriod =
      max current (minimum - clampWord basePeriod.nanos / 2) := by
  simp [entryRuntime, h]

theorem entryRuntime_le {current minimum : Nat} (scaledPeriod basePeriod : Duration) (hc : current ≤ maxWord)
    (hm : minimum ≤ maxWord) : entryRuntime current minimum scaledPeriod basePeriod ≤ maxWord := by
  unfold entryRuntime
  have := clampWord_le (minimum + clampWord scaledPeriod.nanos)
  split <;> omega

/-- Whoever enters the run queue is no further behind the minimum than half a base period. -/
theorem le_entryRuntime_add (current : Nat) {minimum : Nat} (scaledPeriod basePeriod : Duration)
    (hm : minimum ≤ maxWord) :
    minimum ≤ entryRuntime current minimum scaledPeriod basePeriod + clampWord basePeriod.nanos / 2 := by
  unfold entryRuntime
  split
  · have : minimum ≤ clampWord (minimum + clampWord scaledPeriod.nanos) := by
      unfold clampWord
      omega
    omega
  · omega

namespace Meter

variable {m m' : Meter n} {l : List (Fin n)} {e : Fin n} {stage : Fin n → Stage}

/-! ## The minimum -/

theorem least_le_runtime (he : e ∈ l) : m.least l ≤ m.runtime e :=
  (le_foldl_min.1 (Nat.le_refl (m.least l))).2 e he

/-- The head of a run queue that is in order is the least. -/
theorem Ordered.least_le {q : Entry n} (h : m.Ordered) (hq : q ∈ m.queue) : m.least l ≤ q.runtime := by
  have hle := (le_foldl_min.1 (Nat.le_refl (m.least l))).1
  have hs := h.sorted
  cases hqueue : m.queue with
  | nil => simp [hqueue] at hq
  | cons head rest =>
    simp only [hqueue] at hle hs hq
    rcases List.mem_cons.1 hq with rfl | hr
    · exact hle
    · have hb := Entry.before_iff.1 ((List.pairwise_cons.1 hs).1 q hr)
      omega

theorem charge_minimum (m : Meter n) (l : List (Fin n)) :
    (m.charge l).minimum = m.minimum ∨
      m.minimum < (m.charge l).minimum ∧ (m.charge l).minimum = (m.pay l).least l ∧ (m.charge l).minimum < maxWord := by
  unfold charge raise
  split
  · rename_i h
    exact Or.inr ⟨h.1, rfl, h.2⟩
  · exact Or.inl rfl

theorem minimum_le_charge (m : Meter n) (l : List (Fin n)) : m.minimum ≤ (m.charge l).minimum := by
  rcases m.charge_minimum l with h | h <;> omega

/-- The minimum never sinks. -/
theorem Ticks.minimum (h : m.Ticks stage m') : m.minimum ≤ m'.minimum := by
  cases h with
  | enter e hq hr => exact m.minimum_le_charge _
  | leave e hr => exact minimum_le_charge { m with running := m.running.filter (· != e) } _
  | requeue e hr => exact minimum_le_charge { m with running := m.running.filter (· != e) } _
  | _ => exact Nat.le_refl _

theorem Ticks.config (h : m.Ticks stage m') : m'.config = m.config := by
  cases h with
  | enter e hq hr => exact m.charge_config _
  | leave e hr => exact charge_config { m with running := m.running.filter (· != e) } _
  | requeue e hr => exact charge_config { m with running := m.running.filter (· != e) } _
  | _ => rfl

/-! ## Charges -/

theorem mem_leaving (he : e ∈ m.running) {e' : Fin n} : e' ∈ m.running.filter (· != e) ++ [e] ↔ e' ∈ m.running := by
  by_cases h : e' = e
  · simp [h, he]
  · simp [h]

/-- What an executor owes is a word. -/
theorem due_le (m : Meter n) (e : Fin n) : m.due e ≤ m.now - m.chargedAt e := Nat.div_le_self ..

theorem due_le_maxWord (m : Meter n) (e : Fin n) : m.due e ≤ maxWord :=
  Nat.le_trans (m.due_le e) (Nat.le_trans (Nat.sub_le ..) (clampWord_le m.clock))

theorem leave_runtime (he : e ∈ m.running) (e' : Fin n) :
    (m.leave e).runtime e' = if e' ∈ m.running then wrapWord (m.runtime e' + m.due e') else m.runtime e' := by
  unfold leave
  rw [charge_runtime]
  simp only [mem_leaving he]
  rfl

theorem leave_charges (m : Meter n) (e : Fin n) :
    (m.leave e).charges = m.charges ++ (m.running.filter (· != e) ++ [e]).map fun e' => (e', m.due e') := by
  unfold leave
  rw [charge_charges]
  rfl

/-- On the way from one meter to another an executor is charged beyond the range of a word. -/
def Overflows (m m' : Meter n) (e : Fin n) : Prop :=
  ∃ c ∈ m'.charges.drop m.charges.length, c.1 = e ∧ maxWord < m.runtime e + c.2

theorem overflows_iff (h : m'.charges = m.charges ++ l.map fun e => (e, m.due e)) :
    m.Overflows m' e ↔ e ∈ l ∧ maxWord < m.runtime e + m.due e := by
  simp only [Overflows, h, List.drop_left, List.mem_map]
  constructor
  · rintro ⟨_, ⟨e', he', rfl⟩, rfl, hover⟩
    exact ⟨he', hover⟩
  · rintro ⟨he, hover⟩
    exact ⟨_, ⟨e, he, rfl⟩, rfl, hover⟩

theorem not_overflows (h : m'.charges = m.charges) : ¬m.Overflows m' e := by
  rw [overflows_iff (l := []) (by simp [h])]
  simp

/-- What can happen to the virtual runtime of an executor. -/
inductive Fare (m : Meter n) (e : Fin n) (m' : Meter n) : Prop where
  /-- Nothing. -/
  | free (hr : m'.runtime e = m.runtime e) (ho : ¬m.Overflows m' e)
    (ha : m'.arrivals ≠ m.arrivals ++ [e]) : Fare m e m'
  /-- It runs and is charged. -/
  | paid (he : e ∈ m.running) (hr : m'.runtime e = wrapWord (m.runtime e + m.due e))
    (ho : m.Overflows m' e ↔ maxWord < m.runtime e + m.due e) : Fare m e m'
  /-- It enters the run queue. -/
  | entered (he : e ∉ m.running) (ha : m'.arrivals = m.arrivals ++ [e])
    (hr : m'.runtime e = entryRuntime (m.runtime e) m'.minimum m.scaledPeriod m.config.basePeriod)
    (ho : ¬m.Overflows m' e) : Fare m e m'

/-- Everybody who runs is charged when one of them leaves its worker. -/
theorem fare_leave (he : e ∈ m.running) (hr : m'.runtime = (m.leave e).runtime)
    (hc : m'.charges = (m.leave e).charges) {e' : Fin n} (ha : m'.arrivals = m.arrivals ++ [e'] → e' ∈ m.running) :
    m.Fare e' m' := by
  have hover := overflows_iff (e := e') (hc.trans (m.leave_charges e))
  rw [mem_leaving he] at hover
  have hr' := (congrFun hr e').trans (leave_runtime he e')
  by_cases hrun : e' ∈ m.running
  · exact .paid hrun (by simpa [hrun] using hr') (by simp [hover, hrun])
  · exact .free (by simpa [hrun] using hr') (by simp [hover, hrun]) fun h => hrun (ha h)

theorem Ticks.fare (h : m.Ticks stage m') (e : Fin n) : m.Fare e m' := by
  cases h with
  | enter e' hq hr =>
    have ha : (m.enter e').arrivals = m.arrivals ++ [e'] := by simp
    have hc : (m.enter e').charges = m.charges ++ m.running.map fun e => (e, m.due e) := by
      simp
    by_cases he : e = e'
    · subst he
      refine .entered hr ha ?_ (by rw [overflows_iff hc]; exact fun h => hr h.1)
      have hs : (m.charge m.running).scaledPeriod = m.scaledPeriod := by simp [scaledPeriod]
      simp [enter_runtime, hr, hs]
    · by_cases hrun : e ∈ m.running
      · exact .paid hrun (by simp [enter_runtime, he, hrun]) (by simp [overflows_iff hc, hrun])
      · exact .free (by simp [enter_runtime, he, hrun]) (by simp [overflows_iff hc, hrun])
          (by simp [Ne.symm he])
  | leave e' hr => exact fare_leave hr rfl rfl (by simp)
  | requeue e' hr =>
    have ha : ((m.leave e').push e').arrivals = m.arrivals ++ [e] → e ∈ m.running := by
      intro h
      obtain rfl : e' = e := by simpa using h
      exact hr
    refine fare_leave hr ?_ ?_ ha
    · rfl
    · rfl
  | _ => exact .free rfl (not_overflows rfl) (by simp [Meter.take])

theorem Ticks.clock_le (h : m.Ticks stage m') : m.clock ≤ m'.clock := by
  cases h with
  | pass nanos => exact Nat.le_add_right ..
  | enter e hq hr => simp
  | leave e hr => simp
  | requeue e hr => simp
  | _ => exact Nat.le_refl _

/-! ## Words -/

/-- The virtual runtimes and the minimum are words. -/
structure Words (m : Meter n) : Prop where
  runtime : ∀ e, m.runtime e ≤ maxWord
  minimum : m.minimum ≤ maxWord

theorem Words.ticks (hw : m.Words) (h : m.Ticks stage m') : m'.Words := by
  have hcharge : ∀ (m : Meter n) (l : List (Fin n)), m.minimum ≤ maxWord → (m.charge l).minimum ≤ maxWord := by
    intro m l hm
    rcases m.charge_minimum l with h | h <;> omega
  have hmin : m'.minimum ≤ maxWord := by
    cases h with
    | enter e hq hr => exact hcharge m _ hw.minimum
    | leave e hr => exact hcharge { m with running := m.running.filter (· != e) } _ hw.minimum
    | requeue e hr => exact hcharge { m with running := m.running.filter (· != e) } _ hw.minimum
    | _ => exact hw.minimum
  refine ⟨fun e => ?_, hmin⟩
  cases h.fare e with
  | free hr ho ha => rw [hr]; exact hw.runtime e
  | paid he hr ho => rw [hr]; exact wrapWord_le _
  | entered he ha hr ho => rw [hr]; exact entryRuntime_le _ _ (hw.runtime e) hmin

/-- A virtual runtime sinks exactly where a charge leaves the range of a word. -/
theorem Ticks.sinks_iff (h : m.Ticks stage m') (hw : m.Words) (e : Fin n) :
    m'.runtime e < m.runtime e ↔ m.Overflows m' e := by
  cases h.fare e with
  | free hr ho ha => simp [hr, ho]
  | entered he ha hr ho => simp [hr, ho, le_entryRuntime]
  | paid he hr ho =>
    rw [hr, ho]
    exact wrapWord_add_lt_iff (hw.runtime e) (m.due_le_maxWord e)

/-- Without an overflow nobody's virtual runtime sinks. -/
theorem Ticks.runtime_le (h : m.Ticks stage m') (hw : m.Words) (ho : ¬m.Overflows m' e) : m.runtime e ≤ m'.runtime e :=
  Nat.not_lt.1 fun hlt => ho ((h.sinks_iff hw e).1 hlt)

/-! ## Who never entered the run queue -/

/-- An executor has a virtual runtime of zero exactly until it enters the run queue, and nobody runs before that. -/
structure Fresh (m : Meter n) : Prop where
  zero : ∀ e, m.runtime e = 0 ↔ e ∉ m.arrivals
  known : ∀ e ∈ m.running, e ∈ m.arrivals

/-- What an action adds to the arrivals. -/
theorem Ticks.arrivals (h : m.Ticks stage m') : m'.arrivals = m.arrivals ∨ ∃ e, m'.arrivals = m.arrivals ++ [e] := by
  cases h with
  | enter e hq hr => exact Or.inr ⟨e, by simp⟩
  | leave e hr => exact Or.inl (by simp)
  | requeue e hr => exact Or.inr ⟨e, by simp⟩
  | _ => exact Or.inl rfl

/-- Whoever begins to run is taken by a worker. -/
theorem Ticks.begins (h : m.Ticks stage m') (he : e ∈ m'.running) :
    e ∈ m.running ∨ ∃ w, m'.takings = m.takings ++ [(e, w)] := by
  cases h with
  | enter e' hq hr => exact Or.inl (by simpa using he)
  | take w skipped head rest hq hdone =>
    rcases List.mem_append.1 he with he | he
    · exact Or.inl he
    · rw [List.mem_singleton.1 he]
      exact Or.inr ⟨w, rfl⟩
  | leave e' hr =>
    have he : e ∈ m.running.filter (· != e') := by simpa using he
    exact Or.inl (List.mem_filter.1 he).1
  | requeue e' hr =>
    have he : e ∈ m.running.filter (· != e') := by simpa using he
    exact Or.inl (List.mem_filter.1 he).1
  | _ => exact Or.inl he

theorem Ticks.known (h : m.Ticks stage m') (hf : m.Fresh) (ho : m.Ordered) :
    ∀ e ∈ m'.running, e ∈ m.arrivals := by
  intro e he
  rcases h.begins he with hrun | ⟨w, htake⟩
  · exact hf.known e hrun
  · obtain ⟨skipped, head, rest, hq, -, rfl, -⟩ := h.taken htake
    obtain ⟨before, after, ha, -, -⟩ := ho.stamped head (by simp [hq])
    rw [ha]
    simp

theorem Fresh.ticks (hf : m.Fresh) (h : m.Ticks stage m') (ho : m.Ordered)
    (hperiod : 0 < m.config.minPeriod.nanos) (hover : ∀ e, ¬m.Overflows m' e) : m'.Fresh := by
  have hmem : ∀ e ∈ m.arrivals, e ∈ m'.arrivals := by
    intro e he
    rcases h.arrivals with ha | ⟨e', ha⟩ <;> simp [ha, he]
  refine ⟨fun e => ?_, fun e he => hmem e (h.known hf ho e he)⟩
  cases h.fare e with
  | free hr hno ha =>
    have hnew : e ∈ m'.arrivals → e ∈ m.arrivals := by
      intro he
      rcases h.arrivals with ha' | ⟨e', ha'⟩
      · rwa [ha'] at he
      · rw [ha', List.mem_append, List.mem_singleton] at he
        rcases he with he | rfl
        · exact he
        · exact absurd ha' ha
    rw [hr, hf.zero]
    exact not_congr ⟨hmem e, hnew⟩
  | paid he hr hover' =>
    have hk := hf.known e he
    have hpos : m.runtime e ≠ 0 := fun hz => (hf.zero e).1 hz hk
    have hfit : m.runtime e + m.due e ≤ maxWord := Nat.not_lt.1 fun h => hover e (hover'.2 h)
    rw [hr, wrapWord_of_le hfit]
    simp [hpos, hmem e hk]
  | entered he ha hr hno =>
    have hpos : 0 < m'.runtime e := by
      by_cases hz : m.runtime e = 0
      · have hs : 0 < m.scaledPeriod.nanos := by
          unfold scaledPeriod Duration.max
          split <;> omega
        rw [hr, hz, entryRuntime_zero]
        unfold clampWord maxWord
        omega
      · rw [hr]
        have := le_entryRuntime (m.runtime e) m'.minimum m.scaledPeriod m.config.basePeriod
        omega
    simp [ha, Nat.pos_iff_ne_zero.1 hpos]

end Meter

namespace Pool

/-- An action charges an executor beyond the range of a word. -/
def Overflows (s : Pool n) (a : Action n) (e : Fin n) : Prop :=
  ∃ c ∈ (s.act a).charges.drop s.charges.length, c.1 = e ∧ maxWord < s.runtime e + c.2

instance (s : Pool n) (a : Action n) (e : Fin n) : Decidable (s.Overflows a e) :=
  inferInstanceAs (Decidable (∃ c ∈ (s.act a).charges.drop s.charges.length, c.1 = e ∧ maxWord < s.runtime e + c.2))

end Pool

end FairShare.Scheduler

import FairShare.Proofs.Containment
import FairShare.Proofs.Slices

/-!
# The records of slices

In the course of a run the moments of an executor make up its stints on workers, one after the other, the last of which
may still go on. Its observations are those of its stints and what its work observes by itself; a stint whose slice is
over is observed in full, and ends, after a few more steps of the thread that has closed the slice.
-/

namespace FairShare.Scheduler

variable {n : Nat}

/-- Whether an observation is of the time that a slice took. -/
def isTask (m : Metrics.Standard) : Metrics.Observation → Bool
  | .event metric _ => metric = m.computerTasks
  | .counter _ => false

/-- What the work of an executor observes, by an instruction. -/
def Instr.aside? (e : Fin n) : Instr n → Option Metrics.Observation
  | .observe e' o => if e' = e then some o else none
  | _ => none

namespace Stint

variable {m : Metrics.Standard}

/-- One observation of the time is made of every slice. -/
theorem countP_observations (hm : m.computerTasks ≠ m.allocation) (v : Stint) :
    (v.observations m).countP (isTask m) = if v.isSlice then 1 else 0 := by
  cases v with
  | skipped finish => rfl
  | abandoned w start before called finish => simp [observations, isTask, isSlice]
  | returned w start before after finish =>
    by_cases h : before < after <;> simp [observations, isTask, isSlice, h, hm.symm]

theorem filterMap_moments (v : Stint) : (v.moments m).filterMap Moment.observation? = v.observations m := by
  have hslice : v.slice.filterMap Moment.observation? = [] := by
    cases v with
    | abandoned w start before called finish => cases called <;> rfl
    | _ => rfl
  rw [moments, List.filterMap_append, List.filterMap_append, hslice, List.filterMap_map]
  simp [Function.comp_def, Moment.observation?]

theorem filterMap_flatMap_moments (stints : List Stint) :
    (stints.flatMap (moments m)).filterMap Moment.observation? = stints.flatMap (observations m) := by
  induction stints with
  | nil => rfl
  | cons v stints ih => rw [List.flatMap_cons, List.filterMap_append, filterMap_moments, ih, List.flatMap_cons]

theorem countP_flatMap_observations (hm : m.computerTasks ≠ m.allocation) (stints : List Stint) :
    (stints.flatMap (observations m)).countP (isTask m) = stints.countP isSlice := by
  induction stints with
  | nil => rfl
  | cons v stints ih =>
    rw [List.flatMap_cons, List.countP_append, ih, countP_observations hm, List.countP_cons, Nat.add_comm]

/-- The stay of a stint that is not finished has not ended. -/
theorem Unfinished.not_settled {tail : List Moment} (h : Unfinished m tail) : .settled ∉ tail := by
  obtain ⟨v, -, ⟨rest, hrest⟩, hne⟩ := h
  intro hin
  rcases List.eq_nil_or_concat rest with rfl | ⟨front, last, rfl⟩
  · exact hne (by rw [← hrest, List.append_nil])
  · rw [List.concat_eq_append, ← List.append_assoc] at hrest
    obtain ⟨hfront, -⟩ := List.append_inj' hrest rfl
    have hmem : Moment.settled ∈ v.slice ++ (v.observations m).map .observed := hfront ▸ List.mem_append_left front hin
    cases v with
    | abandoned w start before called finish => cases called <;> simp [slice] at hmem
    | _ => simp [slice] at hmem

/-- What is not finished comes to be the first part of the stint that is finished next. -/
theorem Unfinished.prefix {tail rest : List Moment} (h : Unfinished m tail) {v : Stint}
    (hv : tail <+: v.moments m ++ rest) : tail <+: v.moments m := by
  rcases List.prefix_or_prefix_of_prefix hv (List.prefix_append (v.moments m) rest) with hle | hle
  · exact hle
  · exact absurd (hle.subset (by simp [moments])) h.not_settled

end Stint

namespace Pool

open Instr

variable {s : Pool n} {e : Fin n} {tail : List Moment}

/-! ## Runs -/

theorem Standing.unfinished (h : s.Standing e tail) : Stint.Unfinished s.context.standard tail := by
  cases h with
  | away => exact Stint.unfinished_of_slice (v := .skipped 0) trivial List.nil_prefix
  | there t hp => exact hp.unfinished
  | inSlice w start bytes called =>
    exact Stint.unfinished_of_slice (v := .abandoned w start bytes called start) (Nat.le_refl start)
      (List.prefix_append ..)
  | torn _ _ _ _ htail => exact htail

theorem run_standard (s : Pool n) (actions : List (Action n)) : (s.run actions).context.standard = s.context.standard := by
  induction actions generalizing s with
  | nil => rfl
  | cons a actions ih => exact (ih (s.act a)).trans (act_standard s a)

theorem Traced.run (h : s.Traced e) {actions : List (Action n)} (ha : ∀ a ∈ actions, a.retimes e = false) :
    (s.run actions).Traced e := by
  induction actions generalizing s with
  | nil => exact h
  | cons a actions ih =>
    rw [List.forall_mem_cons] at ha
    exact ih (h.act ha.1) ha.2

theorem chronicle_append (s : Pool n) (e : Fin n) (actions more : List (Action n)) :
    s.chronicle e (actions ++ more) = s.chronicle e actions ++ (s.run actions).chronicle e more := by
  induction actions generalizing s with
  | nil => rfl
  | cons a actions ih =>
    rw [List.cons_append, chronicle, ih, chronicle, List.append_assoc]
    rfl

/-- A run goes on with the stints of an executor. -/
theorem Standing.run (h : s.Traced e) (hstanding : s.Standing e tail) {actions : List (Action n)}
    (ha : ∀ a ∈ actions, a.retimes e = false) :
    ∃ (stints : List Stint) (tail' : List Moment), (∀ v ∈ stints, v.Timely) ∧
      tail ++ s.chronicle e actions = stints.flatMap (Stint.moments s.context.standard) ++ tail' ∧
      (s.run actions).Standing e tail' := by
  induction actions generalizing s tail with
  | nil => exact ⟨[], tail, by simp, by simp [chronicle], hstanding⟩
  | cons a actions ih =>
    rw [List.forall_mem_cons] at ha
    obtain ⟨stints, mid, htimely, hmid, hmidstanding⟩ := h.advances hstanding a
    obtain ⟨stints', tail', htimely', htail', hstanding'⟩ := ih (h.act ha.1) hmidstanding ha.2
    rw [act_standard] at htail'
    refine ⟨stints ++ stints', tail', fun v hv => ?_, ?_, hstanding'⟩
    · exact (List.mem_append.1 hv).elim (htimely v) (htimely' v)
    · rw [chronicle, ← List.append_assoc, hmid, List.append_assoc, htail', List.flatMap_append, List.append_assoc]

theorem create_traced (config : SchedulerConfig) (context : Metrics.Context) (log : LogFilter) (hosts : Vector Host n)
    (e : Fin n) : (create config context log hosts).Traced e := by
  have hnone : (create config context log hosts).startOf e = none := by
    simp [startOf, create, executor, Executor.create, TimeoutState.create]
  have hb := books_create config context log hosts
  refine ⟨run_orderly config context log hosts [], run_placed config context log hosts [], ?_, ?_, ?_, ?_, ?_⟩
  · rw [hb]
    simp [Books.Fitted, Books.start]
  · rw [hb]
    exact .start e hnone
  · simp [hb, Books.start, Books.todo]
  · simp [hb, Books.start]
  · simp [hnone]

theorem create_standing (config : SchedulerConfig) (context : Metrics.Context) (log : LogFilter) (hosts : Vector Host n)
    (e : Fin n) : (create config context log hosts).Standing e [] :=
  .away (by simp [books_create, Books.start])

/-! ## What is observed -/

/-- What the work of an executor observes in the course of some actions. -/
def asides (s : Pool n) (e : Fin n) : List (Action n) → List Metrics.Observation
  | [] => []
  | a :: actions => ((s.head? a).bind (aside? e)).toList ++ (s.act a).asides e actions

/-- What is observed by an instruction is of a slice or observed by the work. -/
theorem observation?_eq (s : Pool n) (e : Fin n) (i : Instr n) :
    (i.observation? e).toList = ((s.momentOf e i).bind Moment.observation?).toList ++ (i.aside? e).toList := by
  cases i with
  | account e' o =>
    by_cases h : e' = e <;> simp [Instr.observation?, momentOf, Moment.observation?, aside?, h]
  | observe e' o => simp [Instr.observation?, momentOf, aside?]
  | call c => cases c <;> simp [Instr.observation?, momentOf, Moment.observation?, aside?]
  | _ => simp [Instr.observation?, momentOf, Moment.observation?, aside?]

theorem act_heard (s : Pool n) (a : Action n) (e : Fin n) : (s.act a).observations e =
    s.observations e ++ ((s.moment? e a).toList.filterMap Moment.observation? ++
      ((s.head? a).bind (aside? e)).toList) := by
  rw [act_observations, moment?]
  cases s.head? a with
  | none => rfl
  | some i =>
    rw [Option.bind_some, Option.bind_some, Option.bind_some, observation?_eq s]
    cases s.momentOf e i with
    | none => rfl
    | some m => cases h : m.observation? <;> simp [h]

/-- What is observed for an executor is what its stints call for and what its work observes, each in its order. -/
theorem run_observations (s : Pool n) (e : Fin n) (actions : List (Action n)) :
    ((s.run actions).observations e).Perm
      (s.observations e ++ ((s.chronicle e actions).filterMap Moment.observation? ++ s.asides e actions)) := by
  induction actions generalizing s with
  | nil => simp [chronicle, asides, run]
  | cons a actions ih =>
    refine (ih (s.act a)).trans ?_
    rw [act_heard, chronicle, asides, List.filterMap_append, List.append_assoc]
    refine (List.Perm.refl _).append ?_
    simp only [List.perm_iff_count, List.count_append]
    intro o
    omega

/-! ## Steps of its own -/

theorem settled_through {pre now : List (Action n)} {a : Action n} (h : .settled ∈ ((s.run pre).act a).chronicle e now) :
    .settled ∈ s.chronicle e (pre ++ a :: now) := by
  rw [chronicle_append, chronicle]
  exact List.mem_append_right _ (List.mem_append_right _ h)

/-- A thread that is to end the stay of an executor does so when it has observed what the slice calls for. -/
theorem soon_settled_of_notes {t : ThreadId} {left notes : List (Instr n)} (hsink : (s.executor e).host.sink ≠ .host true)
    (hn : ∀ x ∈ notes, (∃ o, x = .account e o) ∨ ∃ before after, x = .warnAllocation e before after)
    (hcode : s.code t = notes ++ .settle e :: left) :
    Soon t (notes.length + 1) fun now => .settled ∈ s.chronicle e now := by
  induction notes generalizing s with
  | nil =>
    refine Soon.step hcode (by simp) fun pre _ hcode' => Soon.here ?_
    rw [chronicle_append, chronicle, moment?_step hcode']
    simp [momentOf]
  | cons x notes ih =>
    obtain ⟨hx, hn⟩ := List.forall_mem_cons.1 hn
    have hwork : ∀ w e', x ≠ .work w e' := by
      rintro w e' rfl
      rcases hx with ⟨o, hx⟩ | ⟨before, after, hx⟩ <;> cases hx
    refine Soon.step hcode hwork fun pre _ hcode' => ?_
    have hsink' : ((s.run pre).executor e).host.sink ≠ .host true := by
      rw [run_host]
      exact hsink
    have hnew : ((s.run pre).act (.step t)).code t = notes ++ .settle e :: left := by
      rcases hx with ⟨o, rfl⟩ | ⟨before, after, rfl⟩
      · rcases (s.run pre).step_goes t hcode' rfl with ⟨next, b', g', he, rfl, -, hbooks, -⟩ | ⟨e', o', hi, hfail, -⟩
        · have hnew := code_step (codes_of_code hcode') he hbooks
          exact hnew
        · obtain ⟨rfl, rfl⟩ := Instr.account.inj hi
          exact absurd hfail hsink'
      · obtain ⟨next, b', -, rfl, -, -, hnew⟩ := step_does hcode' rfl (by simp)
        exact hnew
    have hsink'' : (((s.run pre).act (.step t)).executor e).host.sink ≠ .host true :=
      (congrArg Host.sink (run_host (s.run pre) [.step t] e)).symm ▸ hsink'
    exact (ih hsink'' hn hnew).mono (Nat.le_refl _) fun now => settled_through

theorem soon_settled_of_reset {t : ThreadId} {left : List (Instr n)} {slice : SliceRecord}
    (hsink : (s.executor e).host.sink ≠ .host true) (hcode : s.code t = .resetTimer e slice :: left) :
    Soon t 4 fun now => .settled ∈ s.chronicle e now := by
  refine Soon.step hcode (by simp) fun pre _ hcode' => ?_
  obtain ⟨hlen, hn, -⟩ := account_notes (s.run pre) e (((s.run pre).executor e).timeout.executionTime (s.run pre).clock) slice
  have hsink' : (((s.run pre).act (.step t)).executor e).host.sink ≠ .host true := by
    rw [show (((s.run pre).act (.step t)).executor e).host = _ from run_host (s.run pre) [.step t] e, run_host]
    exact hsink
  exact (soon_settled_of_notes hsink' hn (code_resetTimer hcode')).mono (by omega) fun now => settled_through

/-- The stint whose slice is over ends. -/
theorem Standing.soon_settled (h : s.Standing e tail) (hsink : (s.executor e).host.sink ≠ .host true)
    (hover : tail.any Moment.isEnd = true) : ∃ t, Soon t 4 fun now => .settled ∈ s.chronicle e now := by
  cases h with
  | away => cases hover
  | torn hrun hstay hcur hfail => exact absurd hfail hsink
  | inSlice w start bytes called => cases called <;> cases hover
  | there t hp =>
    refine ⟨t, ?_⟩
    generalize hcode : s.code t = code at hp
    generalize s.startOf e = clock at hp
    cases hp with
    | returned w start before after => exact soon_settled_of_reset hsink hcode
    | abandoned w start bytes called left => exact soon_settled_of_reset hsink hcode
    | accounting v hv told notes left clock hlen hn ho =>
      exact (soon_settled_of_notes hsink hn hcode).mono (by omega) fun _ => id
    | _ => cases hover

/-- One record is made of every slice of an executor. -/
structure Recorded (s : Pool n) (e : Fin n) (actions : List (Action n)) : Prop where
  /-- The executor has one stint after the other. Once the slice of a stint that goes on is over, the stint ends
  within four steps of some thread, whatever else happens, unless its observer fails. -/
  stints : ∃ (stints : List Stint) (tail : List Moment), (∀ v ∈ stints, v.Timely) ∧
    s.chronicle e actions = stints.flatMap (Stint.moments s.context.standard) ++ tail ∧
    Stint.Unfinished s.context.standard tail ∧
    ((s.executor e).host.sink ≠ .host true → tail.any Moment.isEnd = true →
      ∃ t : ThreadId, ∀ more : List (Action n), (∀ a ∈ more, a.retimes e = false) → 4 ≤ more.countP (·.isStep t) →
        ∃ (v : Stint) (rest : List Moment), v.Timely ∧ tail <+: v.moments s.context.standard ∧
          s.chronicle e (actions ++ more) =
            stints.flatMap (Stint.moments s.context.standard) ++ v.moments s.context.standard ++ rest)
  /-- What is observed is what its stints call for and what its work observes by itself. -/
  received : ((s.run actions).observations e).Perm
    ((s.chronicle e actions).filterMap Moment.observation? ++ s.asides e actions)
  /-- Between two stints, the time was observed once for every slice and as often as the work did. -/
  counted : s.context.standard.computerTasks ≠ s.context.standard.allocation → ∀ stints : List Stint,
    s.chronicle e actions = stints.flatMap (Stint.moments s.context.standard) →
    ((s.run actions).observations e).countP (isTask s.context.standard) =
      stints.countP Stint.isSlice + (s.asides e actions).countP (isTask s.context.standard)

/-- Every run of a scheduler records each slice once, as long as the host does not itself start the clock of the executor
or reset its timeout. -/
theorem run_recorded (config : SchedulerConfig) (context : Metrics.Context) (log : LogFilter) (hosts : Vector Host n)
    {e : Fin n} {actions : List (Action n)} (ha : ∀ a ∈ actions, a.retimes e = false) :
    (create config context log hosts).Recorded e actions := by
  have htraced := create_traced config context log hosts e
  have hstanding := create_standing config context log hosts e
  have hnone : (create config context log hosts).observations e = [] := rfl
  generalize create config context log hosts = s at htraced hstanding hnone
  have hperm := s.run_observations e actions
  rw [hnone, List.nil_append] at hperm
  refine ⟨?_, hperm, fun hm stints hstints => ?_⟩
  · obtain ⟨stints, tail, htimely, hchronicle, hend⟩ := hstanding.run htraced ha
    have hstandard := s.run_standard actions
    refine ⟨stints, tail, htimely, hchronicle, hstandard ▸ hend.unfinished, fun hsink hover => ?_⟩
    have hsink' : ((s.run actions).executor e).host.sink ≠ .host true := by
      rw [run_host]
      exact hsink
    obtain ⟨t, hsoon⟩ := hend.soon_settled hsink' hover
    refine ⟨t, fun more hmore hfour => ?_⟩
    have hsettled : .settled ∈ (s.run actions).chronicle e more := by
      obtain ⟨now, later, rfl, hnow⟩ := hsoon more hfour
      rw [chronicle_append]
      exact List.mem_append_left _ hnow
    obtain ⟨stints', tail', htimely', hmid, hend'⟩ := hend.run (htraced.run ha) hmore
    rw [hstandard] at hmid
    cases stints' with
    | nil =>
      -- The stay would have ended without the end of a stint.
      rw [List.flatMap_nil, List.nil_append] at hmid
      exact absurd (hmid ▸ List.mem_append_right tail hsettled) hend'.unfinished.not_settled
    | cons v stints' =>
      rw [List.flatMap_cons, List.append_assoc] at hmid
      refine ⟨v, stints'.flatMap (Stint.moments s.context.standard) ++ tail', htimely' v (List.mem_cons_self ..), ?_, ?_⟩
      · have hunfinished : Stint.Unfinished s.context.standard tail := hstandard ▸ hend.unfinished
        exact hunfinished.prefix (hmid ▸ List.prefix_append ..)
      · rw [chronicle_append, show s.chronicle e actions = _ from hchronicle, List.append_assoc, hmid, List.append_assoc]
  · rw [hperm.countP_eq, List.countP_append, hstints, Stint.filterMap_flatMap_moments,
      Stint.countP_flatMap_observations hm]

/-- A scheduler with one executor, which observes to the metrics context, and its own standard metrics. -/
def metered : Pool 1 :=
  let standard : Metrics.Standard :=
    { computerTasks := ⟨0, "computer_tasks", .event .time⟩, serverTasks := ⟨1, "server_tasks", .event .time⟩
      allocation := ⟨2, "allocation", .event .bytes⟩, peripheralOps := ⟨3, "peripheral_ops", .counter⟩
      fsOps := ⟨4, "fs_ops", .counter⟩, coroutinesCreated := ⟨5, "coroutines_created", .counter⟩
      coroutinesDisposed := ⟨6, "coroutines_disposed", .counter⟩ }
  create {} { registry := {}, standard } none #v[{ computer := ⟨0⟩, sink := .context }]

/-- The thread of the worker is given some bytes, and the work returns after a while. -/
def spent : List (Action 1) := begun ++ [.work 2 (.allocate 100), .advance 5, .work 2 (.finish .ok)]

theorem recorded_spent :
    (∀ a ∈ spent ++ steps 2 6, a.retimes only = false) ∧
      metered.chronicle only (spent ++ steps 2 6) =
        (Stint.returned 0 0 0 100 5).moments metered.context.standard ∧
      metered.Recorded only (spent ++ steps 2 6) := by
  have ha : ∀ a ∈ spent ++ steps 2 6, a.retimes only = false := by decide +kernel
  exact ⟨ha, by decide +kernel, run_recorded _ _ _ _ ha⟩

/-- The work observes the time of the slice by itself, and returns. -/
def observedTwice : List (Action 1) :=
  begun ++ [.work 2 (.observe (.event metered.context.standard.computerTasks 9)), .step 2, .advance 5,
    .work 2 (.finish .ok)] ++ steps 2 5

/-- The watchdog retires the worker after that has published the executor and before it calls the work. -/
def neverCalled : List (Action 1) :=
  .call (.submit only) :: steps 0 2 ++ steps 2 9 ++ steps 1 3 ++ [.advance 20000000000] ++ steps 1 14

/-- One slice has two observations of its time when the work makes one, and a slice whose work was not called has one when it
was abandoned. -/
theorem records_beside_slices :
    (metered.chronicle only observedTwice = (Stint.returned 0 0 0 0 5).moments metered.context.standard ∧
      ((metered.run observedTwice).observations only).countP (isTask metered.context.standard) = 2) ∧
    metered.chronicle only neverCalled =
        (Stint.abandoned 0 0 0 false 20000000000).moments metered.context.standard ∧
      (metered.run neverCalled).observations only = [.event metered.context.standard.computerTasks 20000000000] := by
  decide +kernel

end Pool

end FairShare.Scheduler

import FairShare.Proofs.Aftermath
import FairShare.Proofs.Interrupts
import FairShare.Proofs.Outset
import FairShare.Proofs.Precision

/-!
# Sleep

The work of a slice can sleep until a moment, or until its worker is interrupted. Its thread looks whether the worker was
interrupted, then whether the moment has come, and waits if it finds neither; but it can be woken at any time, by an
interrupt, by one that was meant for an earlier slice or by nothing at all, and then looks again. What ends the sleep is
what the thread finds when it looks, and never that it was woken.
-/

namespace FairShare.Scheduler.Pool

variable {n : Nat} {s : Pool n} {t : ThreadId} {w : WorkerId} {e : Fin n} {deadline : Instant} {rest : List (Instr n)}

/-! ## One look -/

theorem step_sleep_up (h : s.code t = .sleep w deadline :: rest) (hup : s.interrupted w = true) :
    (s.step t).code t = rest ∧ (s.step t).answer? t = some (.slept false) := by
  obtain ⟨thread, ht⟩ := thread_of_code h
  have he : (s.setCode t rest).exec t (.sleep w deadline) =
      ((s.setCode t rest).setAnswer t (.slept false), some []) := if_pos hup
  exact step_thread h rfl he (threads_setAnswer ht _)

theorem step_sleep_down (h : s.code t = .sleep w deadline :: rest) (hup : s.interrupted w = false) :
    (s.step t).code t = .doze w deadline :: rest := by
  obtain ⟨thread, ht⟩ := thread_of_code h
  have he : (s.setCode t rest).exec t (.sleep w deadline) = (s.setCode t rest, some [.doze w deadline]) :=
    if_neg (Bool.eq_false_iff.1 hup)
  exact (step_thread h rfl he ht).1

theorem step_doze_late (h : s.code t = .doze w deadline :: rest) (hlate : deadline ≤ s.clock) :
    (s.step t).code t = rest ∧ (s.step t).answer? t = some (.slept true) := by
  obtain ⟨thread, ht⟩ := thread_of_code h
  have he : (s.setCode t rest).exec t (.doze w deadline) =
      ((s.setCode t rest).setAnswer t (.slept true), some []) := if_pos hlate
  exact step_thread h rfl he (threads_setAnswer ht _)

theorem step_doze_early (h : s.code t = .doze w deadline :: rest) (hearly : s.clock < deadline) :
    (s.step t).code t = .sleep w deadline :: rest := by
  obtain ⟨thread, ht⟩ := thread_of_code h
  have he : (s.setCode t rest).exec t (.doze w deadline) = (s.setCode t rest, some [.sleep w deadline]) :=
    if_neg (Nat.not_le.2 hearly)
  exact (step_thread h rfl he ht).1

/-- What a thread finds, if an action has it look whether its worker was interrupted. -/
def look (s : Pool n) (t : ThreadId) : Action n → List Bool
  | .step t' => match s.code t with
    | .sleep w _ :: _ => if t' = t then [s.interrupted w] else []
    | _ => []
  | _ => []

/-- What a thread finds each time that it looks, in the course of a run. -/
def looks (s : Pool n) (t : ThreadId) : List (Action n) → List Bool
  | [] => []
  | a :: actions => s.look t a ++ (s.act a).looks t actions

theorem looks_concat (s : Pool n) (t : ThreadId) (l : List (Action n)) (a : Action n) :
    s.looks t (l ++ [a]) = s.looks t l ++ (s.run l).look t a := by
  induction l generalizing s with
  | nil => exact List.append_nil _
  | cons b l ih =>
    rw [List.cons_append, looks, ih, looks, List.append_assoc]
    rfl

theorem look_of_ne {a : Action n} (ha : a ≠ .step t) : s.look t a = [] := by
  cases a with
  | step t' =>
    have hne : t' ≠ t := fun h => ha (h ▸ rfl)
    simp only [look]
    split
    · exact if_neg hne
    · rfl
  | _ => rfl

theorem looks_of_forall {pre : List (Action n)} (hpre : ∀ a ∈ pre, a ≠ .step t) : s.looks t pre = [] := by
  induction pre generalizing s with
  | nil => rfl
  | cons a pre ih =>
    rw [List.forall_mem_cons] at hpre
    rw [looks, look_of_ne hpre.1, ih hpre.2, List.append_nil]

theorem look_sleep (h : s.code t = .sleep w deadline :: rest) : s.look t (.step t) = [s.interrupted w] := by
  simp [look, h]

theorem look_doze (h : s.code t = .doze w deadline :: rest) : s.look t (.step t) = [] := by
  simp [look, h]

theorem clock_le_act (s : Pool n) (a : Action n) : s.clock ≤ (s.act a).clock := Books.clock_le_goes (act_goes s a)

theorem clock_le_run (s : Pool n) (l : List (Action n)) : s.clock ≤ (s.run l).clock := by
  induction l generalizing s with
  | nil => exact Nat.le_refl _
  | cons a l ih => exact Nat.le_trans (s.clock_le_act a) (ih _)

/-! ## A sleep -/

/-- Where a sleep stands when the thread has looked some times, up to its end. -/
inductive Sleep (s : Pool n) (t : ThreadId) (w : WorkerId) (deadline : Instant) (rest : List (Instr n)) :
    List Bool → Prop where
  /-- The thread is about to look. -/
  | looking (looks : List Bool) (hcode : s.code t = .sleep w deadline :: rest) (hdown : ∀ up ∈ looks, up = false) :
    Sleep s t w deadline rest looks
  /-- It has looked, and is about to look at the clock. -/
  | dozing (looks : List Bool) (hcode : s.code t = .doze w deadline :: rest)
      (hdown : ∀ up ∈ looks ++ [false], up = false) : Sleep s t w deadline rest (looks ++ [false])
  /-- The sleep was completed: the moment has come, and the last look found the interrupt down, as all others did. -/
  | completed (looks : List Bool) (hcode : s.code t = rest) (hanswer : s.answer? t = some (.slept true))
      (hlate : deadline ≤ s.clock) (hdown : ∀ up ∈ looks ++ [false], up = false) :
    Sleep s t w deadline rest (looks ++ [false])
  /-- It was cut short by the first look that found the interrupt up. -/
  | cut (looks : List Bool) (hcode : s.code t = rest) (hanswer : s.answer? t = some (.slept false))
      (hdown : ∀ up ∈ looks, up = false) : Sleep s t w deadline rest (looks ++ [true])

theorem Sleep.act {looks : List Bool} (h : s.Sleep t w deadline rest looks) (hgoes : s.code t ≠ rest) (a : Action n) :
    (s.act a).Sleep t w deadline rest (looks ++ s.look t a) := by
  by_cases ha : a = .step t
  · subst ha
    cases h with
    | looking _ hcode hdown =>
      rw [look_sleep hcode]
      cases hup : s.interrupted w with
      | true =>
        obtain ⟨hrest, hanswer⟩ := step_sleep_up hcode hup
        exact .cut looks hrest hanswer hdown
      | false => exact .dozing looks (step_sleep_down hcode hup) (by simpa using hdown)
    | dozing looks hcode hdown =>
      rw [look_doze hcode, List.append_nil]
      by_cases hlate : deadline ≤ s.clock
      · obtain ⟨hrest, hanswer⟩ := step_doze_late hcode hlate
        exact .completed looks hrest hanswer (Nat.le_trans hlate (s.clock_le_act _)) hdown
      · exact .looking _ (step_doze_early hcode (Nat.lt_of_not_le hlate)) hdown
    | completed _ hcode => exact absurd hcode hgoes
    | cut _ hcode => exact absurd hcode hgoes
  · rw [look_of_ne ha, List.append_nil]
    cases h with
    | looking _ hcode hdown =>
      exact .looking _ ((act_code s ha (by simp [hcode]) (by simp [hcode])).trans hcode) hdown
    | dozing looks hcode hdown =>
      exact .dozing looks ((act_code s ha (by simp [hcode]) (by simp [hcode])).trans hcode) hdown
    | completed _ hcode => exact absurd hcode hgoes
    | cut _ hcode => exact absurd hcode hgoes

theorem sleep_run (hcode : s.code t = .sleep w deadline :: rest) {later : List (Action n)}
    (hgoes : s.Along (fun s' _ => s'.code t ≠ rest) later) :
    (s.run later).Sleep t w deadline rest (s.looks t later) := by
  induction later using List.reverseRecOn with
  | nil => exact .looking [] hcode (by simp)
  | append_singleton later a ih =>
    obtain ⟨hbefore, hlast, -⟩ := along_append.1 hgoes
    rw [looks_concat, run_append]
    exact (ih hbefore).act hlast a

/-! ## The interrupt of the slice -/

/-- A thread has a slice to close, of an executor on a worker. -/
def SliceOpen (s : Pool n) (t : ThreadId) (w : WorkerId) (e : Fin n) : Prop := ∃ a, .closeSlice w e a ∈ s.code t

theorem SliceOpen.mem_todo (h : s.SliceOpen t w e) : ∃ a, .closeSlice w e a ∈ s.books.todo := by
  obtain ⟨a, hclose⟩ := h
  obtain ⟨i, rest, hcode⟩ := List.exists_cons_of_ne_nil (List.ne_nil_of_mem hclose)
  exact ⟨a, List.mem_flatten.2 ⟨_, List.mem_of_getElem? (codes_of_code hcode), hcode ▸ hclose⟩⟩

theorem interrupted_act (ho : s.books.Orderly) (hm : s.Manning) (hup : s.interrupted w = true)
    (hopen : s.SliceOpen t w e) (a : Action n) : (s.act a).interrupted w = true := by
  obtain ⟨d, hclose⟩ := hopen.mem_todo
  exact interrupted_true.2 (Books.interrupted_keep ho hm.fitted (act_goes s a) hclose (interrupted_true.1 hup))

/-- The interrupt of a worker, once up, stays up while the slice lasts. -/
theorem interrupted_run (ho : s.books.Orderly) (hm : s.Manning) (hup : s.interrupted w = true) {later : List (Action n)}
    (hopen : s.Along (fun s' _ => s'.SliceOpen t w e) later) : (s.run later).interrupted w = true := by
  induction later generalizing s with
  | nil => exact hup
  | cons a later ih =>
    exact ih (ho.moves (act_moves s a)) (hm.act ho a) (interrupted_act ho hm hup hopen.1 a) hopen.2

theorem interrupted_iff (h : s.books.Heeded s.gear) (hopen : s.SliceOpen t w e) :
    s.interrupted w = true ↔ Interrupted w s.deeds := by
  obtain ⟨d, hclose⟩ := hopen.mem_todo
  obtain ⟨up, hup, hiff⟩ := h.within w e d hclose
  have hdeeds : s.gear.deeds = s.deeds := rfl
  rw [interrupted_true, hup, ← hdeeds, ← hiff]
  exact ⟨Option.some.inj, congrArg some⟩

/-! ## The end of a sleep -/

theorem act_sleep (h : s.code t = .work w e :: rest) (nanos : Nat) :
    (s.act (.work t (.sleep nanos))).code t = .sleep w (s.clock + nanos) :: s.code t := by
  have hact : s.act (.work t (.sleep nanos)) = s.setCode t (.sleep w (s.clock + nanos) :: .work w e :: rest) := by
    simp only [act, h]
    rfl
  rw [hact, code_setCode_self h, h]

/-- In the course of a run a thread comes to have something to do, and not before its end. -/
def Attains (s : Pool n) (t : ThreadId) (code : List (Instr n)) (more : List (Action n)) : Prop :=
  s.Along (fun s' _ => s'.code t ≠ code) more ∧ (s.run more).code t = code

theorem attains_nil (h : s.code t = rest) : s.Attains t rest [] := ⟨trivial, h⟩

/-- What a thread has to do next, unless it is within work, it has until it takes a step. -/
theorem along_waiting {P : Pool n → Prop} {i : Instr n} (hcode : s.code t = i :: rest) (hi : ∀ w e, i ≠ .work w e)
    (hP : ∀ s' : Pool n, s'.code t = i :: rest → P s') {pre : List (Action n)} (hpre : ∀ a ∈ pre, a ≠ .step t) :
    s.Along (fun s' _ => P s') pre := by
  induction pre generalizing s with
  | nil => trivial
  | cons a pre ih =>
    rw [List.forall_mem_cons] at hpre
    have hkeep : (s.act a).code t = s.code t :=
      act_code s hpre.1 (fun w e rest' h => hi w e (List.cons.inj (hcode.symm.trans h)).1) (by simp [hcode])
    exact ⟨hP s hcode, ih (hkeep.trans hcode) hpre.2⟩

theorem Attains.through {i : Instr n} {pre now : List (Action n)} (hcode : s.code t = i :: rest)
    (hi : ∀ w e, i ≠ .work w e) (hpre : ∀ a ∈ pre, a ≠ .step t) (hcode' : (s.run pre).code t = i :: rest)
    (h : ((s.run pre).step t).Attains t rest now) : s.Attains t rest (pre ++ .step t :: now) := by
  have hne : ∀ s' : Pool n, s'.code t = i :: rest → s'.code t ≠ rest := by
    intro s' h' hrest
    simp [h'] at hrest
  refine ⟨along_append.2 ⟨along_waiting hcode hi hne hpre, hne _ hcode', h.1⟩, ?_⟩
  rw [run_through]
  exact h.2

theorem soon_attains {k : Nat} {i : Instr n} (hcode : s.code t = i :: rest) (hi : ∀ w e, i ≠ .work w e)
    (h : ∀ pre, (∀ a ∈ pre, a ≠ .step t) → (s.run pre).code t = i :: rest →
      Soon t k (((s.run pre).step t).Attains t rest)) : Soon t (k + 1) (s.Attains t rest) :=
  Soon.step hcode hi fun pre hpre hcode' =>
    (h pre hpre hcode').mono (Nat.le_refl k) fun _ hnow => hnow.through hcode hi hpre hcode'

section

variable {d : UInt64} {pre : List (Action n)}

theorem run_kept (ho : s.books.Orderly) (hm : s.Manning) (l : List (Action n)) :
    (s.run l).books.Orderly ∧ (s.run l).Manning := by
  induction l generalizing s with
  | nil => exact ⟨ho, hm⟩
  | cons a l ih => exact ih (ho.moves (act_moves s a)) (hm.act ho a)

/-- A thread that sleeps in a slice stays interrupted until it looks again. -/
theorem interrupted_until {i : Instr n} (ho : s.books.Orderly) (hm : s.Manning) (hcode : s.code t = i :: rest)
    (hi : ∀ w e, i ≠ .work w e) (hclose : .closeSlice w e d ∈ rest) (hup : s.interrupted w = true)
    (hpre : ∀ a ∈ pre, a ≠ .step t) : (s.run pre).interrupted w = true :=
  interrupted_run ho hm hup
    (along_waiting hcode hi (fun _ h => ⟨d, h ▸ List.mem_cons_of_mem i hclose⟩) hpre)

/-- A sleep ends with the first look that finds the worker interrupted. -/
theorem soon_cut (ho : s.books.Orderly) (hm : s.Manning) (hcode : s.code t = .sleep w deadline :: rest)
    (hclose : .closeSlice w e d ∈ rest) (hup : s.interrupted w = true) :
    Soon t 1 fun more => s.Attains t rest more ∧ s.looks t more = [true] ∧
      (s.run more).answer? t = some (.slept false) := by
  refine Soon.step hcode (by simp) fun pre hpre hcode' => .here ?_
  have hup' : (s.run pre).interrupted w = true := interrupted_until ho hm hcode (by simp) hclose hup hpre
  obtain ⟨hrest, hanswer⟩ := step_sleep_up hcode' hup'
  refine ⟨(attains_nil hrest).through hcode (by simp) hpre hcode', ?_, ?_⟩
  · rw [looks_concat, looks_of_forall hpre, look_sleep hcode', hup', List.nil_append]
  · rw [run_append]
    exact hanswer

/-- A sleep ends with the first look at the clock that finds that the moment has come. -/
theorem soon_complete (hcode : s.code t = .doze w deadline :: rest) (hlate : deadline ≤ s.clock) :
    Soon t 1 (s.Attains t rest) :=
  soon_attains hcode (by simp) fun pre _ hcode' =>
    .here (attains_nil (step_doze_late hcode' (Nat.le_trans hlate (s.clock_le_run pre))).1)

/-- A thread that looks at one and has not got the other wakes up all the same, when it looks at the other. -/
theorem soon_awake (ho : s.books.Orderly) (hm : s.Manning)
    (hcode : s.code t = .sleep w deadline :: rest ∨ s.code t = .doze w deadline :: rest)
    (hclose : .closeSlice w e d ∈ rest) (hdue : deadline ≤ s.clock ∨ s.interrupted w = true) :
    Soon t 2 (s.Attains t rest) := by
  rcases hcode with hcode | hcode
  · refine soon_attains hcode (by simp) fun pre hpre hcode' => ?_
    cases hup : (s.run pre).interrupted w with
    | true => exact .here (attains_nil (step_sleep_up hcode' hup).1)
    | false =>
      have hlate : deadline ≤ s.clock := hdue.resolve_right fun h => by
        simp [interrupted_until ho hm hcode (by simp) hclose h hpre] at hup
      have hlate' : deadline ≤ ((s.run pre).step t).clock :=
        Nat.le_trans (Nat.le_trans hlate (s.clock_le_run pre)) ((s.run pre).clock_le_act (.step t))
      exact soon_complete (step_sleep_down hcode' hup) hlate'
  · refine soon_attains hcode (by simp) fun pre hpre hcode' => ?_
    by_cases hlate : deadline ≤ (s.run pre).clock
    · exact .here (attains_nil (step_doze_late hcode' hlate).1)
    · have hup : s.interrupted w = true := hdue.resolve_left fun h => hlate (Nat.le_trans h (s.clock_le_run pre))
      have hup' : (s.run pre).interrupted w = true := interrupted_until ho hm hcode (by simp) hclose hup hpre
      obtain ⟨ho', hm'⟩ := run_kept ho hm (pre ++ [.step t])
      rw [run_append] at ho' hm'
      have hopen : (s.run pre).SliceOpen t w e := ⟨d, hcode' ▸ List.mem_cons_of_mem _ hclose⟩
      have hup'' : ((s.run pre).step t).interrupted w = true :=
        interrupted_act (run_kept ho hm pre).1 (run_kept ho hm pre).2 hup' hopen (.step t)
      have hcode'' := step_doze_early hcode' (Nat.lt_of_not_le hlate)
      exact (soon_cut ho' hm' hcode'' hclose hup'').mono (Nat.le_refl 1) fun _ h => h.1

end

theorem Sleep.asleep {looks : List Bool} (h : s.Sleep t w deadline rest looks) (hne : s.code t ≠ rest) :
    s.code t = .sleep w deadline :: rest ∨ s.code t = .doze w deadline :: rest := by
  cases h with
  | looking _ hcode => exact Or.inl hcode
  | dozing _ hcode => exact Or.inr hcode
  | completed _ hcode => exact absurd hcode hne
  | cut _ hcode => exact absurd hcode hne

/-- What a thread that is within the work of an executor on a worker can rely on when it looks whether it was interrupted,
and when it sleeps. -/
structure Heeds (s : Pool n) (t : ThreadId) (w : WorkerId) (e : Fin n) : Prop where
  inSlice : s.SliceOpen t w e
  /-- Now and whenever it has a slice to close, it is interrupted exactly if its worker was interrupted since it took the
  executor. -/
  check : ∀ later, (s.run later).SliceOpen t w e →
    ((s.run later).interrupted w = true ↔ Interrupted w (s.run later).deeds)
  /-- Once interrupted, it stays so as long as the slice lasts. -/
  lasting : s.interrupted w = true → ∀ later, s.Along (fun s' _ => s'.SliceOpen t w e) later →
    (s.run later).interrupted w = true
  /-- A sleep is completed at its moment, or cut short by the first look that finds it interrupted. -/
  sleep : ∀ nanos later, (s.act (.work t (.sleep nanos))).Along (fun s' _ => s'.code t ≠ s.code t) later →
    ((s.act (.work t (.sleep nanos))).run later).Sleep t w (s.clock + nanos) (s.code t)
      ((s.act (.work t (.sleep nanos))).looks t later)
  /-- It ends within two steps of the thread after its moment or an interrupt. -/
  ends : ∀ nanos later, (s.act (.work t (.sleep nanos))).Along (fun s' _ => s'.code t ≠ s.code t) later →
    let s' := (s.act (.work t (.sleep nanos))).run later
    s'.code t ≠ s.code t → s.clock + nanos ≤ s'.clock ∨ s'.interrupted w = true → Soon t 2 (s'.Attains t (s.code t))
  /-- It ends with the first step of the thread if that was interrupted already. -/
  atOnce : s.interrupted w = true → ∀ nanos, Soon t 1 fun more =>
    (s.act (.work t (.sleep nanos))).Attains t (s.code t) more ∧
      (s.act (.work t (.sleep nanos))).looks t more = [true] ∧
      ((s.act (.work t (.sleep nanos))).run more).answer? t = some (.slept false)

/-- The work of a slice is interrupted exactly when its slice is, and sleeps until its time has come or it is interrupted,
whoever else wakes it. -/
theorem run_heeds (config : SchedulerConfig) (context : Metrics.Context) (log : LogFilter) (hosts : Vector Host n)
    (actions : List (Action n)) (hwork : ((create config context log hosts).run actions).atWork t w e = true) :
    ((create config context log hosts).run actions).Heeds t w e := by
  have ho := run_orderly config context log hosts actions
  have hm := (run_heeded config context log hosts actions).1
  have hs : ∀ later, let s' := ((create config context log hosts).run actions).run later; s'.books.Heeded s'.gear := by
    intro later
    rw [← run_append]
    exact (run_heeded config context log hosts (actions ++ later)).2
  generalize (create config context log hosts).run actions = s at hwork ho hm hs
  obtain ⟨rest, hcode⟩ := code_of_atWork hwork
  obtain ⟨d, hrest⟩ : ∃ d, rest = [.closeSlice w e d, .nextSlice w] :=
    (hm.fitted _ (List.mem_of_getElem? (codes_of_code hcode))).1
  have hclose : .closeSlice w e d ∈ s.code t := by simp [hcode, hrest]
  have hasleep := fun nanos => act_sleep hcode nanos
  have hbegun := fun nanos => run_kept ho hm [.work t (.sleep nanos)]
  constructor
  case inSlice => exact ⟨d, hclose⟩
  case check => exact fun later hopen => interrupted_iff (hs later) hopen
  case lasting => exact fun hup later hopen => interrupted_run ho hm hup hopen
  case sleep => exact fun nanos later hgoes => sleep_run (hasleep nanos) hgoes
  case ends =>
    intro nanos later hgoes s' hne hdue
    obtain ⟨ho', hm'⟩ := run_kept (hbegun nanos).1 (hbegun nanos).2 later
    exact soon_awake ho' hm' ((sleep_run (hasleep nanos) hgoes).asleep hne) hclose hdue
  case atOnce =>
    intro hup nanos
    have hup' : (s.act (.work t (.sleep nanos))).interrupted w = true :=
      interrupted_act ho hm hup ⟨d, hclose⟩ (.work t (.sleep nanos))
    exact soon_cut (hbegun nanos).1 (hbegun nanos).2 (hasleep nanos) hclose hup'

/-- The watchdog has interrupted the worker, and the work goes on. -/
def interruptedInside : List (Action 1) := overdue 10500000000 ++ steps 1 6

theorem heeds_interruptedInside :
    (lone.run interruptedInside).atWork 2 0 only = true ∧ (lone.run interruptedInside).interrupted 0 = true ∧
      (lone.run interruptedInside).Heeds 2 0 only := by
  have hwork : (lone.run interruptedInside).atWork 2 0 only = true := by decide +kernel
  exact ⟨hwork, by decide +kernel, run_heeds _ _ _ _ interruptedInside hwork⟩

-- a thread that is woken twice before its time looks again each time, and goes on to sleep
example : (lone.run begun).looks 2 (.work 2 (.sleep 10) :: steps 2 5) = [false, false, false] ∧
    (lone.run (begun ++ .work 2 (.sleep 10) :: steps 2 5)).atWork 2 0 only = false ∧
    (lone.run (begun ++ .work 2 (.sleep 10) :: steps 2 5 ++ .advance 10 :: steps 2 1)).atWork 2 0 only = true := by
  decide +kernel

end FairShare.Scheduler.Pool

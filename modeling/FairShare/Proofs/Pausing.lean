import FairShare.Proofs.Flags
import FairShare.Proofs.RunQueue
import FairShare.Proofs.Shape

/-!
# Pauses

An executor is paused when others wait and it has run for its share. That the others are others rests on the clock of
an executor: the scheduler starts it after it took the executor from the run queue, and resets it before it puts it
back, so whoever has a running clock is not in the run queue.
-/

namespace FairShare.Scheduler

variable {n : Nat}

/-- Whether an action is a call of the host that starts the clock of an executor. -/
def Action.starts (e : Fin n) : Action n → Bool
  | .call (.startTimer e') | .work _ (.call (.startTimer e')) => e' = e
  | _ => false

namespace Instr

/-- Whether an instruction ends a stay of an executor on a worker. -/
def settles (e : Fin n) : Instr n → Bool
  | .settle e' => e' = e
  | _ => false

/-- Whether an instruction starts the clock of an executor. -/
def starts (e : Fin n) : Instr n → Bool
  | .call (.startTimer e') => e' = e
  | _ => false

theorem eq_of_settles {e : Fin n} {i : Instr n} (h : i.settles e = true) : i = .settle e := by
  cases i
  case settle e' =>
    have he : e' = e := by simpa [settles] using h
    rw [he]
  all_goals cases h

/-- Besides the work of an executor, only a worker that begins a slice comes to starting a clock. -/
theorem Leads.starts {i : Instr n} {next : List (Instr n)} {e : Fin n} (hl : i.Leads next)
    (hw : ∀ w e', i ≠ .work w e') (hm : .call (.startTimer e) ∈ next) :
    ∃ w, i = .openSlice w e ∧ next = [.clearInterrupt w, .call (.startTimer e), .noteAllocated w e] := by
  cases i
  case call c =>
    cases c
    case submit e' => rcases hl with rfl | rfl <;> simp at hm
    case unload e' => rcases hl with rfl | rfl | rfl <;> simp at hm
    all_goals cases hl; simp at hm
  case enqueue e' => rcases hl with rfl | rfl <;> simp at hm
  case finishUnload e' => rcases hl with rfl | rfl <;> simp at hm
  case nextSlice w => rcases hl with rfl | rfl | rfl <;> simp at hm
  case seekWork w => rcases hl with ⟨e', rfl⟩ | rfl | rfl <;> simp at hm
  case awaitWork w => rcases hl with ⟨e', rfl⟩ | rfl | rfl <;> simp at hm
  case openSlice w e' =>
    rcases hl with rfl | rfl
    · simp at hm
    · have he : e = e' := by simpa using hm
      subst he
      exact ⟨w, rfl, rfl⟩
  case noteAllocated w e' => rcases hl with rfl | ⟨a, rfl⟩ <;> simp at hm
  case work w e' => exact absurd rfl (hw w e')
  case sleep w deadline => rcases hl with rfl | rfl <;> simp at hm
  case doze w deadline => rcases hl with rfl | rfl <;> simp at hm
  case handle e' result => rcases hl with rfl | rfl <;> simp at hm
  case closeSlice w e' a => rcases hl with rfl | ⟨slice, rfl⟩ <;> simp at hm
  case resetTimer e' slice =>
    obtain ⟨accounts, ha, rfl⟩ := hl
    rcases List.mem_append.1 hm with hm | hm
    · rcases ha _ hm with ⟨o, ho⟩ | ⟨before, after, hw⟩ <;> simp at *
    · simp at hm
  case settle e' => rcases hl with rfl | rfl <;> simp at hm
  case retire w => rcases hl with rfl | rfl <;> simp at hm
  case takeAbandoned w => rcases hl with rfl | ⟨e', rfl⟩ <;> simp at hm
  case decideRespawn w => obtain ⟨respawn, rfl⟩ := hl; simp at hm
  case watch => rcases hl with rfl | rfl <;> simp at hm
  case beginWatch => obtain ⟨deadline, rfl⟩ := hl; simp at hm
  case inspect => obtain ⟨ws, rfl⟩ := hl; simp at hm
  case checkWorker w => rcases hl with rfl | ⟨e', rfl⟩ <;> simp at hm
  case measure w e' => rcases hl with rfl | ⟨overrun, rfl⟩ <;> simp at hm
  case raise w e' overrun => rcases hl with rfl | rfl <;> simp at hm
  case press w e' overrun => rcases hl with rfl | rfl | rfl <;> simp at hm
  case report w e' overrun => rcases hl with rfl | ⟨thread, rfl⟩ <;> simp at hm
  case collect timeout => obtain ⟨es, rfl⟩ := hl; simp at hm
  case beginStopWait timeout => obtain ⟨deadline, rfl⟩ := hl; simp at hm
  case stopWait deadline timeout => rcases hl with rfl | rfl | rfl <;> simp at hm
  all_goals cases hl; simp at hm

/-- Only a reset comes to the end of a stay. -/
theorem Leads.settles {i : Instr n} {next : List (Instr n)} {e : Fin n} (hl : i.Leads next)
    (hr : ∀ slice, i ≠ .resetTimer e slice) : next.countP (settles e) = 0 := by
  cases hl.turns with
  | plain h => exact countP_plain (fun x hx => by cases x <;> first | rfl | cases hx) h
  | within w e' front hf =>
    have hz : front.countP (Instr.settles e) = 0 := countP_plain (fun x hx => by cases x <;> first | rfl | cases hx) hf
    simp [hz, Instr.settles]
  | reset e' slice accounts ha =>
    have hne : e' ≠ e := by
      rintro rfl
      exact hr slice rfl
    have hz : accounts.countP (Instr.settles e) = 0 :=
      countP_plain (fun x hx => by cases x <;> first | rfl | cases hx) ha
    simp [hz, Instr.settles, hne]
  | _ => simp [Instr.settles]

/-- What is found behind some instructions that do not begin with it is found in what follows them. -/
theorem suffix_of_append {x : Instr n} {l front rest : List (Instr n)} (h : x :: l <:+ front ++ rest) (hx : x ∉ front) :
    x :: l <:+ rest := by
  obtain ⟨before, h⟩ := h
  rcases List.append_eq_append_iff.1 h with ⟨a, ha, hb⟩ | ⟨a, ha, hb⟩
  · cases a with
    | nil => exact ⟨[], by simpa using hb⟩
    | cons y a =>
      simp only [List.cons_append, List.cons.injEq] at hb
      exact absurd (by rw [ha, hb.1]; simp) hx
  · exact ⟨a, hb.symm⟩

end Instr

/-! ## Clocks -/

namespace Books

open Instr

variable {b b' : Books n} {g g' : Gear n} {e : Fin n}

/-- The clock of an executor runs only while the executor does. -/
structure Clocked (b : Books n) (g : Gear n) (e : Fin n) : Prop where
  /-- Whoever has a running clock is on a worker. -/
  running : (g.timeout e).clock.start ≠ none → 0 < b.running.count e
  /-- Its clock is stopped before its stay ends. -/
  settling : 0 < b.todo.countP (Instr.settles e) → (g.timeout e).clock.start = none
  /-- Its clock is started at the beginning of a slice. -/
  starting : ∀ code ∈ b.codes, ∀ rest, .call (.startTimer e) :: rest <:+ code →
    ∃ w, rest = [.noteAllocated w e, .nextSlice w]

theorem Clocked.start (e : Fin n) (h : (g.timeout e).clock.start = none) : Clocked .start g e := by
  constructor <;> simp [Books.start, todo, h]

theorem settles_begins (code : List (Instr n)) (h : Begins code) : code.countP (Instr.settles e) = 0 := by
  rcases h with ⟨w, rfl⟩ | rfl <;> simp [Instr.settles]

theorem settles_le_stays (l : List (Instr n)) : l.countP (Instr.settles e) ≤ l.countP (Instr.stays e) := by
  refine List.countP_mono_left fun i _ hi => ?_
  rw [eq_of_settles hi]
  simp

theorem settles_lt_stays {w : WorkerId} {l : List (Instr n)} (h : .noteAllocated w e ∈ l) :
    l.countP (Instr.settles e) < l.countP (Instr.stays e) := by
  obtain ⟨before, after, rfl⟩ := List.append_of_mem h
  have h1 := settles_le_stays (e := e) before
  have h2 := settles_le_stays (e := e) after
  simp only [List.countP_append, List.countP_cons, Instr.settles, Instr.stays]
  simp
  omega

/-- The start of a clock in what a thread has to do next is that of a slice that begins. -/
theorem Clocked.starting_step (h : b.Clocked g e) {t : ThreadId} {i : Instr n} {rest next : List (Instr n)}
    (ht : b.codes[t]? = some (i :: rest))
    (hnext : .call (.startTimer e) ∈ next → ∃ w, next = [.clearInterrupt w, .call (.startTimer e), .noteAllocated w e] ∧
      rest = [.nextSlice w])
    {after : List (Instr n)} (hs : .call (.startTimer e) :: after <:+ next ++ rest) :
    ∃ w, after = [.noteAllocated w e, .nextSlice w] := by
  by_cases hm : .call (.startTimer e) ∈ next
  · obtain ⟨w, rfl, rfl⟩ := hnext hm
    refine ⟨w, ?_⟩
    simp only [List.cons_append, List.nil_append, List.suffix_cons_iff] at hs
    simpa using hs
  · have hold := (suffix_of_append hs hm).trans (List.suffix_cons i rest)
    exact h.starting _ (List.mem_of_getElem? ht) _ hold

/-- Whoever's clock is about to be started is on a worker, and no stay of it is about to end. -/
theorem Clocked.stays_start (h : b.Clocked g e) (hp : (b.account e).Placed) {t : ThreadId} {rest : List (Instr n)}
    (ht : b.codes[t]? = some (.call (.startTimer e) :: rest)) :
    0 < b.running.count e ∧ b.todo.countP (Instr.settles e) = 0 := by
  obtain ⟨w, rfl⟩ := h.starting _ (List.mem_of_getElem? ht) rest (List.suffix_refl _)
  have hrun := stays_le_running hp
  have hone := running_le_one hp
  have hmem : .noteAllocated w e ∈ b.todo :=
    List.mem_flatten.2 ⟨_, List.mem_of_getElem? ht, by simp⟩
  have hlt := settles_lt_stays hmem
  omega

/-- Clocks run on when a thread goes on that starts none and ends no slice. -/
theorem Clocked.step (h : b.Clocked g e) (hf : b.Fitted) (hp : (b.account e).Placed)
    {t : ThreadId} {i : Instr n} {rest next : List (Instr n)}
    (ht : b.codes[t]? = some (i :: rest)) (hw : ∀ w e, i ≠ .work w e)
    (he : i.Effect { b with codes := b.codes.set t rest } b' next) (hl : i.Leads next)
    (hd : i.Drive { b with codes := b.codes.set t rest } b' g g' next) :
    Clocked { b' with codes := b'.codes.set t (next ++ rest) } g' e := by
  have hmem : i :: rest ∈ b.codes := List.mem_of_getElem? ht
  have hcount := countP_step settles_begins ht he (p := Instr.settles e)
  constructor
  case starting =>
    intro code hc after hs
    obtain ⟨extra, hcodes, hextra⟩ := codes_step ht he
    have hc : code ∈ b.codes.set t (next ++ rest) ++ extra := hcodes ▸ hc
    rcases List.mem_append.1 hc with hc | hc
    · rcases List.mem_or_eq_of_mem_set hc with hc | rfl
      · exact h.starting code hc after hs
      · refine h.starting_step ht (fun hm => ?_) hs
        obtain ⟨w, rfl, hn⟩ := hl.starts hw hm
        exact ⟨w, hn, (hf _ hmem).1⟩
    · have hm : .call (.startTimer e) ∈ code := hs.subset (List.mem_cons_self ..)
      rcases hextra code hc with ⟨w, rfl⟩ | rfl <;> simp at hm
  case running =>
    intro hs
    have hstart : i = .call (.startTimer e) ∨ (g.timeout e).clock.start ≠ none := by
      have hr := hd.timeout e
      generalize g'.timeout e = t' at hr hs
      cases hr with
      | start => exact Or.inl rfl
      | clear => exact absurd rfl hs
      | reset slice => exact absurd rfl hs
      | _ => exact Or.inr hs
    rcases hstart with rfl | hstart
    · have hb : b'.running = b.running := by cases he; rfl
      show 0 < b'.running.count e
      rw [hb]
      exact (h.stays_start hp ht).1
    · have hold := h.running hstart
      show 0 < b'.running.count e
      rcases running_of_effect he with ⟨taken, hrun⟩ | ⟨e', rfl, hrun⟩
      · rw [hrun, List.count_append]
        exact Nat.add_pos_left hold _
      · have hne : e ≠ e' := by
          rintro rfl
          exact hstart (h.settling (List.countP_pos_iff.2 ⟨_, mem_todo ht, by simp [Instr.settles]⟩))
        rw [hrun, List.count_filter (by simpa using hne)]
        exact hold
  case settling =>
    intro hs
    by_cases hr : ∃ slice, i = .resetTimer e slice
    · obtain ⟨slice, rfl⟩ := hr
      obtain ⟨⟨elapsed, rfl⟩, -⟩ := hd
      show (if e = e then (g.timeout e).reset else g.timeout e).clock.start = none
      rw [if_pos rfl]
      rfl
    · have hz := hl.settles fun slice hi => hr ⟨slice, hi⟩
      have hpos : 0 < b.todo.countP (Instr.settles e) := by omega
      have hold := h.settling hpos
      have ht' := hd.timeout e
      generalize g'.timeout e = t' at ht' ⊢
      cases ht' with
      | start =>
        -- The slice that begins is the only stay of the executor.
        have hnone := (h.stays_start hp ht).2
        omega
      | clear => rfl
      | reset slice => rfl
      | _ => exact hold

/-- Clocks run only while executors do, whatever happens, as long as the host starts none. -/
theorem Clocked.goes (h : b.Clocked g e) (hf : b.Fitted) (hp : (b.account e).Placed) {a : Action n}
    (ha : a.starts e = false) (hg : Goes b g a b' g') : b'.Clocked g' e := by
  cases hg with
  | rest => exact h
  | advance => exact ⟨h.running, h.settling, h.starting⟩
  | arrive c =>
    refine ⟨h.running, fun hs => h.settling ?_, ?_⟩
    · simpa [todo, Instr.settles] using hs
    · intro code hc after hs
      rcases List.mem_append.1 hc with hc | hc
      · exact h.starting code hc after hs
      · have hm : .call (.startTimer e) ∈ code := hs.subset (List.mem_cons_self ..)
        rw [List.mem_singleton.1 hc] at hm
        have hcall : c = .startTimer e := by simpa [eq_comm] using hm
        subst hcall
        simp [Action.starts] at ha
  | perform t w e' rest next a ht hb =>
    have hset := countP_flatten_set (Instr.settles e) ht (next ++ rest)
    have hnext : next.countP (Instr.settles e) = 0 ∧ .call (.startTimer e) ∉ next := by
      cases a with
      | call c =>
        cases hb
        refine ⟨by simp [Instr.settles], fun hm => ?_⟩
        have hcall : c = .startTimer e := by simpa [eq_comm] using hm
        subst hcall
        simp [Action.starts] at ha
      | sleep nanos => obtain ⟨deadline, rfl⟩ := hb; simp [Instr.settles]
      | observe o => cases hb; simp [Instr.settles]
      | allocate bytes => cases hb; simp [Instr.settles]
      | finish result => cases hb; simp [Instr.settles]
    refine ⟨h.running, fun hs => h.settling ?_, ?_⟩
    · have hs : 0 < (b.codes.set t (next ++ rest)).flatten.countP (Instr.settles e) := hs
      rw [← List.singleton_append, List.countP_append, List.countP_append] at hset
      show 0 < b.codes.flatten.countP (Instr.settles e)
      omega
    · intro code hc after hs
      rcases List.mem_or_eq_of_mem_set hc with hc | rfl
      · exact h.starting code hc after hs
      · exact h.starting_step ht (fun hm => absurd hm hnext.2) hs
  | step t i rest next b' g' ht hw he hl hd => exact h.step hf hp ht hw he hl hd
  | tear t e' o rest ht hfail =>
    have hset := countP_flatten_set (Instr.settles e) ht []
    refine ⟨h.running, fun hs => h.settling ?_, ?_⟩
    · have hs : 0 < (b.codes.set t []).flatten.countP (Instr.settles e) := hs
      simp only [List.countP_nil] at hset
      show 0 < b.codes.flatten.countP (Instr.settles e)
      omega
    · intro code hc after hs
      rcases List.mem_or_eq_of_mem_set hc with hc | rfl
      · exact h.starting code hc after hs
      · simp at hs

end Books

/-! ## Pauses -/

namespace Pool

open Instr

/-- Whether an executor is paused. -/
def paused (s : Pool n) (e : Fin n) : Bool := (s.executor e).timeout.flags.paused

/-- An executor that is paused has run for its share while others waited. -/
structure PausedFairly (s : Pool n) (e : Fin n) : Prop where
  /-- Its clock runs. -/
  clock : (s.executor e).timeout.clock.start ≠ none
  /-- Somebody waits. -/
  waiting : s.queue ≠ []
  /-- It has run for its share. -/
  share : s.active < 2 ^ 32 →
    max s.config.minPeriod.nanos (s.config.basePeriod.nanos / max 1 s.active) ≤
      (s.executor e).timeout.executionTime s.clock

theorem period_nanos (g : Gear n) {active : Nat} (h : active < 2 ^ 32) :
    (g.period active).nanos = max g.config.minPeriod.nanos (g.config.basePeriod.nanos / max 1 active) := by
  have hmod : max active 1 % 0x100000000 = max 1 active := by
    rw [Nat.mod_eq_of_lt (by omega), Nat.max_comm]
  unfold Gear.period Duration.max Duration.div
  simp only [hmod]
  split <;> simp <;> omega

/-- Whoever is paused by an action is paused fairly, by a refresh. -/
theorem pausedFairly_of_act {s : Pool n} {a : Action n} {e : Fin n} (h : s.paused e = false)
    (h' : (s.act a).paused e = true) : s.PausedFairly e := by
  have hg := act_goes s a
  generalize hb : (s.act a).books = b' at hg
  have ht : ((s.act a).gear.timeout e).flags.paused = true := h'
  generalize (s.act a).gear = g' at hg ht
  have hkeep : g'.timeout e = s.gear.timeout e → s.PausedFairly e := by
    intro hk
    rw [hk] at ht
    have h : (s.gear.timeout e).flags.paused = false := h
    rw [h] at ht
    cases ht
  cases hg with
  | rest => exact hkeep rfl
  | advance => exact hkeep rfl
  | arrive => exact hkeep rfl
  | perform => exact hkeep rfl
  | tear => exact hkeep rfl
  | step t i rest next b' g' htop hw he hl hd =>
    have hr := hd.timeout e
    generalize g'.timeout e = t' at hr ht
    have h : (s.gear.timeout e).flags.paused = false := h
    cases hr with
    | refresh share hshare =>
      rcases TimeoutState.refresh_paused _ _ _ ht with hp | ⟨start, hstart, hc, hper⟩
      · rw [h] at hp
        cases hp
      · obtain ⟨hq, hperiod⟩ := hshare hc
        have hs : (s.executor e).timeout.clock.start = some start := hstart
        refine ⟨by rw [hs]; simp, hq, fun hact => ?_⟩
        have hn := period_nanos s.gear hact
        have hx : (s.executor e).timeout.executionTime s.clock = s.clock - start := by
          unfold TimeoutState.executionTime
          rw [hs]
        have hle : (s.gear.period s.active).nanos ≤ s.clock - start := hperiod ▸ hper
        rw [hx]
        exact hn ▸ hle
    | arm budget => simp at ht
    | start => rw [TimeoutState.startClock_flags, h] at ht; cases ht
    | hardAbort => rw [TimeoutState.hardAbort_flags, h] at ht; cases ht
    | raise w overrun => rw [TimeoutState.hardAbort_flags, h] at ht; cases ht
    | clear => simp at ht
    | reset slice => simp at ht
    | keep => rw [h] at ht; cases ht

/-- The clock of an executor runs only while the executor does, after every run in which the host starts none. -/
theorem run_clocked (config : SchedulerConfig) (context : Metrics.Context) (log : LogFilter)
    (hosts : Vector Host n) {actions : List (Action n)} {e : Fin n} (h : ∀ a ∈ actions, a.starts e = false) :
    let s := (create config context log hosts).run actions
    s.books.Fitted ∧ s.books.Clocked s.gear e := by
  have hnone : ((create config context log hosts).gear.timeout e).clock.start = none := by
    simp [create, gear, executor, Executor.create, TimeoutState.create]
  have hb := books_create config context log hosts
  refine run_created (P := fun s => s.books.Fitted ∧ s.books.Clocked s.gear e) ?_ ?_ (along_of_forall h _)
  · rintro s a ho hp ⟨hf, hc⟩ ha
    have hg := act_goes s a
    exact ⟨hf.goes hg, hc.goes hf (hp e) ha hg⟩
  · rw [hb]
    exact ⟨by simp [Books.Fitted, Books.start], .start e hnone⟩

/-- An executor is paused only on a worker, after it ran for its share while another one waited, unless the host starts
its clock. -/
theorem run_pausedFairly (config : SchedulerConfig) (context : Metrics.Context) (log : LogFilter)
    (hosts : Vector Host n) (actions : List (Action n)) (a : Action n) (e : Fin n) :
    let s := (create config context log hosts).run actions
    s.paused e = false → (s.act a).paused e = true →
      s.PausedFairly e ∧
        ((∀ a ∈ actions, a.starts e = false) → e ∈ s.running ∧ ∃ q ∈ s.queue, q.executor ≠ e) := by
  intro s h h'
  have hfair := pausedFairly_of_act h h'
  refine ⟨hfair, fun hnone => ?_⟩
  obtain ⟨-, hclocked⟩ := run_clocked config context log hosts hnone
  have hrun : 0 < s.running.count e := hclocked.running hfair.clock
  obtain ⟨q, hq⟩ := List.exists_mem_of_ne_nil _ hfair.waiting
  refine ⟨List.count_pos_iff.1 hrun, q, hq, ?_⟩
  rintro rfl
  have hone : _ + (s.books.account q.executor).queued + (s.books.account q.executor).running ≤ 1 :=
    (run_placed config context log hosts actions q.executor).single
  have hpos : 0 < (s.books.account q.executor).queued := Books.queued_pos hq
  have hr : 0 < (s.books.account q.executor).running := hrun
  omega

/-! ## With another one, and alone -/

/-- A scheduler with two executors. -/
def pair : Pool 2 := create {} lone.context none both

/-- The work of the first executor has begun on thread 2 when the second is submitted, and goes on for 30 ms, at which
thread 4 is about to refresh it. -/
def contended : List (Action 2) :=
  .call (.submit first) :: .step 0 :: .step 0 :: List.replicate 10 (.step 2) ++
    [.call (.submit second), .step 3, .step 3, .advance 30000000, .call (.refresh first)]

theorem pausedFairly_contended :
    (pair.run contended).paused 0 = false ∧ ((pair.run contended).act (.step 4)).paused 0 = true ∧
      (∀ a ∈ contended, a.starts 0 = false) ∧ (pair.run contended).PausedFairly 0 ∧
      0 ∈ (pair.run contended).running ∧ ∃ q ∈ (pair.run contended).queue, q.executor ≠ 0 :=
  have h : (pair.run contended).paused 0 = false := by decide +kernel
  have h' : ((pair.run contended).act (.step 4)).paused 0 = true := by decide +kernel
  have hnone : ∀ a ∈ contended, a.starts 0 = false := by decide +kernel
  have hall := run_pausedFairly _ _ _ _ contended (.step 4) 0 h h'
  ⟨h, h', hnone, hall.1, hall.2 hnone⟩

/-- The host starts the clock of an executor that waits for the worker to begin, and refreshes it 60 ms later, on
thread 4. -/
def startedEarly : List (Action 1) :=
  .call (.submit only) :: steps 0 2 ++ .call (.startTimer only) :: steps 3 2 ++ [.advance 60000000, .call (.refresh only)]

/-- An executor that is alone is paused, and while it is not running, if the host started its clock. -/
theorem paused_alone :
    (lone.run startedEarly).paused 0 = false ∧ ((lone.run startedEarly).act (.step 4)).paused 0 = true ∧
      (lone.run startedEarly).running = [] ∧ (lone.run startedEarly).queue.map (·.executor) = [0] := by
  decide +kernel

end Pool

end FairShare.Scheduler

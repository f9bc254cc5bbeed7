import FairShare.Proofs.History
import FairShare.Proofs.Watching

/-!
# Who waits as a watchdog

Only the thread that was started last as a watchdog goes on with the rounds of one, and when somebody waits to be woken as
a watchdog, it is that thread and nobody else. So whoever is woken when the scheduler becomes busy is the watchdog.
-/

namespace FairShare.Scheduler

variable {n : Nat}

open Instr

namespace Instr

variable {b b' : Books n} {g g' : Gear n} {i : Instr n} {next : List (Instr n)}

/-- Threads are started for whoever enters the run queue and for whoever leaves a slot. -/
theorem Outcome.codes (ho : Outcome b g i b' g' next) (henter : ∀ e, i ≠ .enqueue e)
    (hvacate : ∀ w respawn, i ≠ .vacate w respawn) : b'.codes = b.codes := by
  cases ho
  case withdraw e =>
    simp only [Books.mark]
    split <;> rfl
  case take htake => cases htake; rfl
  case close htake => cases htake; rfl
  case await htake => cases htake; rfl
  all_goals first | rfl | exact absurd rfl (henter _) | exact absurd rfl (hvacate _ _)

end Instr

namespace Pool

/-- The thread of the watchdog, and who waits as one. -/
def vigil (s : Pool n) : Option ThreadId × List ThreadId := (s.watchdog, s.watchWaiters)

theorem quiet_vigil : Quiet (vigil (n := n)) where
  emit _ _ _ := rfl
  same s s' _ hd hw := by rw [vigil, vigil, hd, hw]

theorem vigil_chargeAll (s : Pool n) (leaving : Option (Fin n)) : (s.chargeAll leaving).vigil = s.vigil :=
  quiet_vigil.placid.chargeAll (fun _ _ _ _ _ => rfl) s leaving

/-- An instruction that neither puts an executor into the run queue nor has to do with who waits as a watchdog keeps the
watchdog. -/
theorem vigil_exec (s : Pool n) (t : ThreadId) {i : Instr n} (henter : ∀ e, i ≠ .enqueue e) (hrouse : i.rouses = false) :
    (s.exec t i).1.vigil = s.vigil := by
  by_cases hsettle : ∃ e, i = .settle e
  · obtain ⟨e, rfl⟩ := hsettle
    have hexec : (s.exec t (.settle e)).1 = (s.settle e).1 := by
      simp only [exec]
      split <;> (rename_i h; rw [h])
    rw [hexec, quiet_vigil.placid.settle, vigil_chargeAll]
    rfl
  · by_cases hvacate : ∃ w respawn, i = .vacate w respawn
    · obtain ⟨w, respawn, rfl⟩ := hvacate
      exact quiet_vigil.placid.vacate s w respawn fun _ _ => Or.inr fun _ => rfl
    · exact quiet_vigil.exec s t henter (fun e hi => hsettle ⟨e, hi⟩) (fun w respawn hi => hvacate ⟨w, respawn, hi⟩) hrouse

/-- A worker that leaves its slot is replaced by a worker. -/
theorem vacate_threads (s : Pool n) (w : WorkerId) (respawn : Bool) :
    (s.vacate w respawn).threads = s.threads ∨
      ∃ w', (s.vacate w respawn).threads = s.threads ++ [{ code := [.startWorker w', .nextSlice w'] }] := by
  unfold vacate
  split
  · exact Or.inl rfl
  · simp only
    split
    · split
      · exact Or.inr ⟨_, rfl⟩
      · exact Or.inl rfl
    · exact Or.inl rfl

/-- A watchdog is started unless it is alive, before any worker is. -/
theorem ensureRunning_threads (s : Pool n) :
    (s.watchdogAlive = true ∧ s.ensureRunning.vigil = s.vigil ∧
      ∃ workers, s.ensureRunning.threads = s.threads ++ workers ∧
        ∀ thread ∈ workers, thread.code.any watches = false) ∨
    s.watchdogAlive = false ∧ s.ensureRunning.vigil = (some s.threads.length, s.watchWaiters) ∧
      ∃ workers, s.ensureRunning.threads = s.threads ++ { code := [.startWatchdog, .watch] } :: workers ∧
        ∀ thread ∈ workers, thread.code.any watches = false := by
  obtain ⟨s', hwatch, hrun⟩ := s.ensureRunning_cases
  have hworkers : s.ensureRunning.vigil = s'.vigil ∧ ∃ workers, s.ensureRunning.threads = s'.threads ++ workers ∧
      ∀ thread ∈ workers, thread.code.any watches = false := by
    rcases hrun with ⟨hrun, -⟩ | ⟨slot, -, hrun⟩ <;> rw [hrun]
    · exact ⟨rfl, [], by simp⟩
    · exact ⟨rfl, _, rfl, by simp⟩
  obtain ⟨hv, workers, hthreads, hnone⟩ := hworkers
  rcases hwatch with ⟨halive, rfl⟩ | ⟨hdead, rfl⟩
  · exact Or.inl ⟨halive, hv, workers, hthreads, hnone⟩
  · exact Or.inr ⟨hdead, hv, workers, hthreads.trans (List.append_assoc s.threads _ workers), hnone⟩

/-- Whoever enters the run queue wakes the watchdog, unless the scheduler was busy before or is not busy after that. -/
theorem enqueue_vigil (s : Pool n) (e : Fin n) {s' : Pool n} (h : s.enqueue e = .ok s') :
    s' = s ∨ s'.books.codes = s.ensureRunning.books.codes ∧ s'.watchdog = s.ensureRunning.watchdog ∧
      (s'.watchWaiters = s.watchWaiters.tail ∨
        s'.watchWaiters = s.watchWaiters ∧ (s.isBusy = true ∨ s'.isBusy = false)) := by
  have hwaiters : s.ensureRunning.watchWaiters = s.watchWaiters := by
    rcases s.ensureRunning_threads with ⟨-, hv, -⟩ | ⟨-, hv, -⟩
    · exact congrArg Prod.snd hv
    · exact congrArg Prod.snd hv
  have hbusy : s.ensureRunning.isBusy = s.isBusy := by
    have hidle : s.ensureRunning.idle = s.idle := by
      rcases s.gear_ensureRunning with ⟨hg, -⟩ | ⟨slot, -, hg, -⟩
      · exact congrArg Gear.idle hg
      · exact congrArg Gear.idle hg
    obtain ⟨current, live, codes, hh⟩ := s.books_ensureRunning.eq
    have hqueue : s.ensureRunning.queue = s.queue := congrArg Books.queue hh
    simp only [isBusy, hidle, hqueue]
  have hv := s.ensureRunning.vigil_chargeAll none
  have hg := s.ensureRunning.gear_chargeAll none
  obtain ⟨runtime, hc, -⟩ := (s.ensureRunning.books_chargeAll none).eq
  unfold enqueue at h
  split at h
  · cases h
  · split at h
    · cases h
      exact Or.inl rfl
    · right
      simp only at h
      generalize s.ensureRunning.chargeAll none = c at hv hg hc h
      have hcbusy : c.isBusy = s.isBusy := by
        have hidle : c.idle = s.ensureRunning.idle := congrArg Gear.idle hg
        have hqueue : c.queue = s.ensureRunning.queue := congrArg Books.queue hc
        rw [← hbusy]
        simp only [isBusy, hidle, hqueue]
      have hcodes : c.books.codes = s.ensureRunning.books.codes := by rw [hc]
      have hdog : c.watchdog = s.ensureRunning.watchdog := congrArg Prod.fst hv
      have hcw : c.watchWaiters = s.watchWaiters := (congrArg Prod.snd hv).trans hwaiters
      generalize hc' : c.modify e _ = c' at h
      have hbusy' : c'.isBusy = s.isBusy := by
        rw [← hcbusy, ← hc']
        rfl
      have hcodes' : c'.books.codes = c.books.codes := by
        rw [← hc']
        rfl
      have hdog' : c'.watchdog = c.watchdog := by
        rw [← hc']
        rfl
      have hcw' : c'.watchWaiters = c.watchWaiters := by
        rw [← hc']
        rfl
      cases h
      split
      · refine ⟨hcodes'.trans hcodes, hdog'.trans hdog, Or.inl ?_⟩
        show c'.watchWaiters.tail = s.watchWaiters.tail
        rw [hcw', hcw]
      · rename_i hquiet
        refine ⟨hcodes'.trans hcodes, hdog'.trans hdog, Or.inr ⟨hcw'.trans hcw, ?_⟩⟩
        rw [← hbusy']
        simpa [← Bool.not_eq_true, Classical.or_iff_not_imp_left] using hquiet

/-- A thread keeps what it has to do while others act. -/
theorem act_code (s : Pool n) {a : Action n} {t : ThreadId} (hstep : a ≠ .step t)
    (hwork : ∀ w e rest, s.code t ≠ .work w e :: rest) (hcode : s.code t ≠ []) : (s.act a).code t = s.code t := by
  obtain ⟨i, rest, hcons⟩ := List.exists_cons_of_ne_nil hcode
  have h := Books.codes_keep (s.act_goes a) (codes_of_code hcons) hstep fun w e rest' heq => hwork w e rest' (hcons.trans heq)
  rw [code_eq, h, hcons]
  rfl

/-- Whoever waits as a watchdog is the only thread that goes on with the rounds of one. -/
structure Vigilant (s : Pool n) : Prop where
  only : ∀ t, (s.code t).any watches = true → s.watchdog = some t
  asleep : ∀ t ∈ s.watchWaiters, s.watchWaiters = [t] ∧ ∃ deadline, s.code t = [.watching deadline, .inspect, .watch]

theorem create_vigilant (config : SchedulerConfig) (context : Metrics.Context) (log : LogFilter)
    (hosts : Vector Host n) : (create config context log hosts).Vigilant := by
  constructor <;> simp [create, code]

theorem code_append {s s' : Pool n} {extra : List (Thread n)} (h : s'.threads = s.threads ++ extra) (t : ThreadId) :
    s'.code t = s.code t ∨ ∃ thread ∈ extra, s.threads.length ≤ t ∧ extra[t - s.threads.length]? = some thread ∧
      s'.code t = thread.code := by
  by_cases hlt : t < s.threads.length
  · left
    simp only [code, h, List.getElem?_append_left hlt]
  · have hge := Nat.le_of_not_lt hlt
    have hget : s'.threads[t]? = extra[t - s.threads.length]? := by rw [h, List.getElem?_append_right hge]
    cases hthread : extra[t - s.threads.length]? with
    | none =>
      left
      simp only [code, hget, hthread, List.getElem?_eq_none hge]
    | some thread =>
      right
      exact ⟨thread, List.mem_of_getElem? hthread, hge, rfl, by simp only [code, hget, hthread]⟩

/-- The watchdog is the same one as long as nobody enters the run queue. -/
theorem exec_watchdog (s : Pool n) (t : ThreadId) {i : Instr n} (henter : ∀ e, i ≠ .enqueue e) :
    (s.exec t i).1.watchdog = s.watchdog := by
  cases hrouse : i.rouses with
  | false => exact congrArg Prod.fst (s.vigil_exec t henter hrouse)
  | true =>
    unfold Instr.rouses at hrouse
    split at hrouse <;> first | rfl | cases hrouse

/-- Nobody begins with the rounds of a watchdog but a thread that is started for that, when no other one does. -/
theorem exec_watches {s : Pool n} (h : ∀ t, (s.code t).any watches = true → s.watchdog = some t) (t : ThreadId)
    (i : Instr n) : ∀ t', ((s.exec t i).1.code t').any watches = true → (s.exec t i).1.watchdog = some t' := by
  by_cases henter : ∃ e, i = .enqueue e
  · obtain ⟨e, rfl⟩ := henter
    simp only [exec]
    split
    · split
      · rename_i s' hs'
        intro t' hwatch
        have hcode : ((s'.emit (.submitted e (.ok ()))).setAnswer t (.result (.ok ()))).code t' = s'.code t' := by
          rw [code_eq, books_setAnswer, code_eq]
          rfl
        rw [hcode] at hwatch
        show s'.watchdog = some t'
        rcases s.enqueue_vigil e hs' with rfl | ⟨hcodes, hdog, -⟩
        · exact h t' hwatch
        · rw [code_eq, hcodes, ← code_eq] at hwatch
          rw [hdog]
          rcases s.ensureRunning_threads with ⟨-, hv, workers, hthreads, hnone⟩ | ⟨hdead, hv, workers, hthreads, hnone⟩
          · rw [show s.ensureRunning.watchdog = s.watchdog from congrArg Prod.fst hv]
            rcases code_append hthreads t' with hold | ⟨thread, hmem, -, -, hnew⟩
            · exact h t' (hold ▸ hwatch)
            · rw [hnew, hnone thread hmem] at hwatch
              cases hwatch
          · rw [show s.ensureRunning.watchdog = some s.threads.length from congrArg Prod.fst hv]
            rcases code_append hthreads t' with hold | ⟨thread, -, hge, hget, hnew⟩
            · -- The watchdog that there was would be alive.
              rw [hold] at hwatch
              have halive : s.watchdogAlive = true := by
                unfold watchdogAlive
                rw [h t' hwatch]
                cases hc : s.code t' with
                | nil => simp [hc] at hwatch
                | cons => simp only [hc, List.isEmpty_cons, Bool.not_false]
              rw [hdead] at halive
              cases halive
            · cases hidx : t' - s.threads.length with
              | zero => exact congrArg some (Nat.le_antisymm hge (Nat.sub_eq_zero_iff_le.1 hidx))
              | succ k =>
                rw [hidx, List.getElem?_cons_succ] at hget
                rw [hnew, hnone thread (List.mem_of_getElem? hget)] at hwatch
                cases hwatch
      · exact h
    · exact h
  · intro t' hwatch
    rw [s.exec_watchdog t fun e hi => henter ⟨e, hi⟩]
    by_cases hvacate : ∃ w respawn, i = .vacate w respawn
    · obtain ⟨w, respawn, rfl⟩ := hvacate
      have hwatch : ((s.vacate w respawn).code t').any watches = true := hwatch
      rcases s.vacate_threads w respawn with hthreads | ⟨w', hthreads⟩
      · exact h t' (by simpa [code, hthreads] using hwatch)
      · rcases code_append hthreads t' with hold | ⟨thread, hmem, -, -, hnew⟩
        · exact h t' (hold ▸ hwatch)
        · rw [hnew, List.mem_singleton.1 hmem] at hwatch
          simp at hwatch
    · have hcodes : (s.exec t i).1.books.codes = s.books.codes := by
        by_cases hwork : ∃ w e, i = .work w e
        · obtain ⟨w, e, rfl⟩ := hwork
          rfl
        · cases hnext : (s.exec t i).2 with
          | none =>
            obtain ⟨-, -, -, hbooks, -⟩ := s.exec_torn t i hnext
            rw [hbooks]
          | some next =>
            have hout := outcome (fun w e hi => hwork ⟨w, e, hi⟩) (s.exec_effect t i hnext) (s.exec_leads t i hnext)
              (s.exec_drive t i hnext)
            exact hout.codes (fun e hi => henter ⟨e, hi⟩) fun w respawn hi => hvacate ⟨w, respawn, hi⟩
      rw [code_eq, hcodes, ← code_eq] at hwatch
      exact h t' hwatch

/-- Carrying out an instruction changes what no thread still has to do after it. -/
theorem exec_code (s : Pool n) (t : ThreadId) (i : Instr n) {t' : ThreadId} (h : s.code t' ≠ []) :
    (s.exec t i).1.code t' = s.code t' := by
  cases hnext : (s.exec t i).2 with
  | none =>
    obtain ⟨-, -, -, hbooks, -⟩ := s.exec_torn t i hnext
    rw [code_eq, hbooks, ← code_eq]
  | some next =>
    obtain ⟨j, rest, hcons⟩ := List.exists_cons_of_ne_nil h
    have ht := codes_of_code hcons
    obtain ⟨extra, hcodes, -⟩ := Books.begins_of_effect (s.exec_effect t i hnext)
    rw [code_eq, hcodes, List.getElem?_append_left (List.getElem?_eq_some_iff.1 ht).1, ← code_eq]

/-- What a thread has to do after its next instruction. -/
theorem step_code {s : Pool n} {t : ThreadId} {i : Instr n} {rest : List (Instr n)} (hcode : s.code t = i :: rest)
    (hwait : s.mustWait t i = false) : ∃ code, (s.step t) = ((s.setCode t rest).exec t i).1.setCode t code ∧
      (code.any watches = true → rest.any watches = true ∨ i.watches = true) := by
  refine ⟨_, by unfold Pool.step; simp only [hcode, hwait]; rfl, fun hwatch => ?_⟩
  split at hwatch
  · rename_i next hnext
    rw [List.any_append, Bool.or_eq_true] at hwatch
    exact hwatch.symm.imp_right (exec_leads _ _ _ hnext).watches
  · simp at hwatch

theorem code_setCode_ne (s : Pool n) {t t' : ThreadId} (hne : t' ≠ t) (code : List (Instr n)) :
    (s.setCode t code).code t' = s.code t' := by
  simp only [Pool.code, setCode, List.getElem?_modify, if_neg (Ne.symm hne)]
  cases s.threads[t']? <;> rfl

theorem code_setCode_self {s : Pool n} {t : ThreadId} {i : Instr n} {rest : List (Instr n)} (h : s.code t = i :: rest)
    (code : List (Instr n)) : (s.setCode t code).code t = code := by
  unfold Pool.code at h
  split at h
  · rename_i thread hthread
    simp [Pool.code, setCode, hthread]
  · cases h

theorem any_setCode {s : Pool n} {t : ThreadId} {code : List (Instr n)} {p : Instr n → Bool}
    (h : ((s.setCode t code).code t).any p = true) : code.any p = true := by
  unfold Pool.code at h
  split at h
  · rename_i thread hthread
    obtain ⟨thread', -, rfl⟩ : ∃ thread', s.threads[t]? = some thread' ∧ { thread' with code } = thread := by
      simpa [setCode] using hthread
    exact h
  · cases h

theorem Vigilant.only_step {s : Pool n} (h : s.Vigilant) {t : ThreadId} {i : Instr n} {rest : List (Instr n)}
    (hcode : s.code t = i :: rest) (hwait : s.mustWait t i = false) (t' : ThreadId)
    (hwatch : ((s.step t).code t').any watches = true) : (s.step t).watchdog = some t' := by
  have honly : ∀ t', ((s.setCode t rest).code t').any watches = true → s.watchdog = some t' := by
    intro t' hwatch
    by_cases hne : t' = t
    · subst hne
      refine h.only t' ?_
      rw [hcode, List.any_cons, any_setCode hwatch, Bool.or_true]
    · rw [code_setCode_ne s hne] at hwatch
      exact h.only t' hwatch
  have hnew := exec_watches (s := s.setCode t rest) honly t i
  obtain ⟨code, hstep, hany⟩ := step_code hcode hwait
  rw [hstep] at hwatch ⊢
  show ((s.setCode t rest).exec t i).1.watchdog = some t'
  by_cases hne : t' = t
  · subst hne
    rcases hany (any_setCode hwatch) with hrest | hi
    · refine hnew t' ?_
      have hself : (s.setCode t' rest).code t' = rest := code_setCode_self hcode rest
      rw [exec_code _ _ _ (by rw [hself]; rintro rfl; cases hrest), hself]
      exact hrest
    · have hdog : ((s.setCode t' rest).exec t' i).1.watchdog = s.watchdog := by
        cases i
        case watch => rfl
        case beginWatch => rfl
        all_goals cases hi
      rw [hdog]
      exact h.only t' (by rw [hcode, List.any_cons, hi, Bool.true_or])
  · rw [code_setCode_ne _ hne] at hwatch
    exact hnew t' hwatch

/-- A thread that waits as a watchdog keeps what it has to do while others act. -/
theorem Vigilant.act_asleep {s : Pool n} (h : s.Vigilant) {a : Action n} {t : ThreadId} (hstep : a ≠ .step t)
    (ht : t ∈ s.watchWaiters) : (s.act a).code t = s.code t := by
  obtain ⟨-, deadline, hcode⟩ := h.asleep t ht
  exact act_code s hstep (by simp [hcode]) (by simp [hcode])

/-- How carrying out an instruction changes who waits as a watchdog. -/
theorem step_waiters {s : Pool n} {t : ThreadId} {i : Instr n} {rest : List (Instr n)} (hcode : s.code t = i :: rest)
    (hwait : s.mustWait t i = false) :
    ((s.step t).watchWaiters = s.watchWaiters ∧ ∀ deadline, i ≠ .watching deadline) ∨
      ((s.step t).watchWaiters = s.watchWaiters.tail ∧ ∃ e, i = .enqueue e) ∨
      ((s.step t).watchWaiters = s.watchWaiters ++ [t] ∧ i = .beginWatch) ∨
      ((s.step t).watchWaiters = s.watchWaiters.filter (· != t) ∧ ∃ deadline, i = .watching deadline) ∨
      ((s.step t).watchWaiters = [] ∧ i = .wakeWatchdog) := by
  obtain ⟨code, hstep, -⟩ := step_code hcode hwait
  have hw : (s.step t).watchWaiters = ((s.setCode t rest).exec t i).1.watchWaiters := by rw [hstep]; rfl
  rw [hw]
  by_cases henter : ∃ e, i = .enqueue e
  · obtain ⟨e, rfl⟩ := henter
    simp only [exec]
    split
    · split
      · rename_i s' hs'
        rcases (s.setCode t rest).enqueue_vigil e hs' with rfl | ⟨-, -, htail | ⟨hsame, -⟩⟩
        · exact Or.inl ⟨rfl, by simp⟩
        · exact Or.inr (Or.inl ⟨htail, e, rfl⟩)
        · exact Or.inl ⟨hsame, by simp⟩
      · exact Or.inl ⟨rfl, by simp⟩
    · exact Or.inl ⟨rfl, by simp⟩
  · cases hrouse : i.rouses with
    | false =>
      have hsame := congrArg Prod.snd ((s.setCode t rest).vigil_exec t (fun e hi => henter ⟨e, hi⟩) hrouse)
      exact Or.inl ⟨hsame, by rintro deadline rfl; cases hrouse⟩
    | true =>
      unfold Instr.rouses at hrouse
      split at hrouse
      · exact Or.inr (Or.inr (Or.inl ⟨rfl, rfl⟩))
      · exact Or.inr (Or.inr (Or.inr (Or.inl ⟨rfl, _, rfl⟩)))
      · exact Or.inr (Or.inr (Or.inr (Or.inr ⟨rfl, rfl⟩)))
      · cases hrouse

theorem Vigilant.asleep_step {s : Pool n} (h : s.Vigilant) (hf : s.books.Fitted) {t : ThreadId} {i : Instr n}
    {rest : List (Instr n)} (hcode : s.code t = i :: rest) (hwait : s.mustWait t i = false) {t' : ThreadId}
    (ht' : t' ∈ (s.step t).watchWaiters) :
    (s.step t).watchWaiters = [t'] ∧ ∃ deadline, (s.step t).code t' = [.watching deadline, .inspect, .watch] := by
  have hfits : i.Fits rest := (hf _ (List.mem_of_getElem? (codes_of_code hcode))).1
  rcases step_waiters hcode hwait with ⟨hsame, hi⟩ | ⟨htail, -⟩ | ⟨hbegin, rfl⟩ | ⟨hfilter, deadline, rfl⟩ | ⟨hnone, -⟩
  · -- Whoever waited before still does, and is not the thread that takes the step, since that is not done with waiting.
    obtain ⟨hone, deadline, hasleep⟩ := h.asleep t' (hsame ▸ ht')
    have hne : t ≠ t' := by
      rintro rfl
      rw [hcode] at hasleep
      exact hi deadline (List.cons.inj hasleep).1
    have hkeep : (s.step t).code t' = s.code t' := h.act_asleep (a := .step t) (by simpa using hne) (hsame ▸ ht')
    exact ⟨hsame.trans hone, deadline, hkeep.trans hasleep⟩
  · rw [htail] at ht'
    obtain ⟨hone, -⟩ := h.asleep t' (List.mem_of_mem_tail ht')
    simp [hone] at ht'
  · -- The watchdog begins to wait, so nobody else does.
    obtain rfl : rest = [] := hfits
    have hdog := h.only t (by simp [hcode])
    have hnone : s.watchWaiters = [] := by
      by_contra hne
      obtain ⟨t₀, ht₀⟩ := List.exists_mem_of_ne_nil _ hne
      obtain ⟨-, deadline, hasleep⟩ := h.asleep t₀ ht₀
      have hdog₀ := h.only t₀ (by simp [hasleep])
      obtain rfl : t = t₀ := Option.some.inj (hdog.symm.trans hdog₀)
      rw [hcode] at hasleep
      simp at hasleep
    have hone : (s.step t).watchWaiters = [t] := by rw [hbegin, hnone]; rfl
    obtain rfl : t' = t := by simpa [hone] using ht'
    obtain ⟨thread, hthread⟩ := thread_of_code hcode
    exact ⟨hone, _, (step_thread hcode hwait rfl hthread).1⟩
  · rw [hfilter] at ht'
    obtain ⟨hmem, hne⟩ := List.mem_filter.1 ht'
    obtain ⟨-, deadline', hasleep⟩ := h.asleep t' hmem
    obtain rfl : rest = [.inspect, .watch] := hfits
    have hdog := h.only t (by simp [hcode])
    have hdog' := h.only t' (by simp [hasleep])
    obtain rfl : t = t' := Option.some.inj (hdog.symm.trans hdog')
    simp at hne
  · rw [hnone] at ht'
    cases ht'

theorem vigil_work (s : Pool n) (t : ThreadId) (a : WorkAction n) : (s.act (.work t a)).vigil = s.vigil := by
  simp only [Pool.act]
  split
  · cases a <;> rfl
  · rfl

theorem step_of_nil {s : Pool n} {t : ThreadId} (h : s.code t = []) : s.step t = s := by
  unfold Pool.step
  rw [h]

theorem step_of_mustWait {s : Pool n} {t : ThreadId} {i : Instr n} {rest : List (Instr n)} (hcode : s.code t = i :: rest)
    (hwait : s.mustWait t i = true) : s.step t = s := by
  unfold Pool.step
  rw [hcode]
  simp only [hwait, if_true]

/-- There is one watchdog after every action, and nobody else waits as one. -/
theorem Vigilant.act {s : Pool n} (h : s.Vigilant) (hf : s.books.Fitted) (a : Action n) : (s.act a).Vigilant := by
  cases a with
  | step t =>
    show (s.step t).Vigilant
    cases hcode : s.code t with
    | nil => rwa [step_of_nil hcode]
    | cons i rest =>
      cases hwait : s.mustWait t i with
      | true => rwa [step_of_mustWait hcode hwait]
      | false => exact ⟨h.only_step hcode hwait, fun t' => h.asleep_step hf hcode hwait⟩
  | call c =>
    have hthreads : (s.act (.call c)).threads = s.threads ++ [_] := rfl
    refine ⟨fun t hwatch => ?_, fun t ht => ?_⟩
    · rcases code_append hthreads t with hold | ⟨thread, hmem, -, -, hnew⟩
      · exact h.only t (hold ▸ hwatch)
      · rw [hnew, List.mem_singleton.1 hmem] at hwatch
        simp at hwatch
    · obtain ⟨hone, deadline, hasleep⟩ := h.asleep t ht
      exact ⟨hone, deadline, (h.act_asleep (by simp) ht).trans hasleep⟩
  | work t a =>
    have hw := s.vigil_work t a
    refine ⟨fun t' hwatch => ?_, fun t' ht' => ?_⟩
    · rw [show (s.act (.work t a)).watchdog = s.watchdog from congrArg Prod.fst hw]
      revert hwatch
      simp only [Pool.act]
      split
      · rename_i w e rest hcode
        intro hwatch
        obtain ⟨hb, -, hbecomes⟩ := s.perform_becomes w e a
        by_cases hne : t' = t
        · subst hne
          have hany := any_setCode hwatch
          rw [List.any_append, Bool.or_eq_true] at hany
          refine h.only t' ?_
          rw [hcode, List.any_cons]
          rcases hany with hnext | hrest
          · cases hbecomes.leads.watches hnext
          · rw [hrest, Bool.or_true]
        · rw [code_setCode_ne _ hne, code_eq, hb, ← code_eq] at hwatch
          exact h.only t' hwatch
      · exact h.only t'
    · rw [show (s.act (.work t a)).watchWaiters = s.watchWaiters from congrArg Prod.snd hw] at ht' ⊢
      obtain ⟨hone, deadline, hasleep⟩ := h.asleep t' ht'
      exact ⟨hone, deadline, (h.act_asleep (by simp) ht').trans hasleep⟩
  | advance nanos => exact ⟨h.only, h.asleep⟩
  | release => exact ⟨h.only, h.asleep⟩

/-- Whoever waits as a watchdog did so before, or has just begun to. -/
theorem act_waits {s : Pool n} (hf : s.books.Fitted) {a : Action n} {t : ThreadId} (ht : t ∈ (s.act a).watchWaiters) :
    t ∈ s.watchWaiters ∨ a = .step t ∧ s.code t = [.beginWatch] := by
  cases a with
  | step t' =>
    have ht : t ∈ (s.step t').watchWaiters := ht
    cases hcode : s.code t' with
    | nil => exact Or.inl (step_of_nil hcode ▸ ht)
    | cons i rest =>
      cases hwait : s.mustWait t' i with
      | true => exact Or.inl (step_of_mustWait hcode hwait ▸ ht)
      | false =>
        rcases step_waiters hcode hwait with ⟨hsame, -⟩ | ⟨htail, -⟩ | ⟨hbegin, rfl⟩ | ⟨hfilter, -⟩ | ⟨hnone, -⟩
        · exact Or.inl (hsame ▸ ht)
        · exact Or.inl (List.mem_of_mem_tail (htail ▸ ht))
        · rw [hbegin, List.mem_append, List.mem_singleton] at ht
          refine ht.imp_right fun ht => ?_
          subst ht
          obtain rfl : rest = [] := (hf _ (List.mem_of_getElem? (codes_of_code hcode))).1
          exact ⟨rfl, hcode⟩
        · exact Or.inl (List.mem_of_mem_filter (hfilter ▸ ht))
        · rw [hnone] at ht
          cases ht
  | work t' a =>
    have hw : (s.act (.work t' a)).watchWaiters = s.watchWaiters := congrArg Prod.snd (s.vigil_work t' a)
    exact Or.inl (hw ▸ ht)
  | _ => exact Or.inl ht

/-- A watchdog that is still asleep has the same to do as before. -/
theorem Vigilant.act_dozes {s : Pool n} (h : s.Vigilant) {a : Action n} {t : ThreadId} (ht : t ∈ s.watchWaiters)
    (ht' : t ∈ (s.act a).watchWaiters) : (s.act a).code t = s.code t := by
  by_cases hstep : a = .step t
  · subst hstep
    show (s.step t).code t = s.code t
    obtain ⟨-, deadline, hcode⟩ := h.asleep t ht
    cases hwait : s.mustWait t (.watching deadline) with
    | true => rw [step_of_mustWait hcode hwait]
    | false =>
      have ht' : t ∈ (s.step t).watchWaiters := ht'
      rcases step_waiters hcode hwait with ⟨-, hi⟩ | ⟨-, e, hi⟩ | ⟨-, hi⟩ | ⟨hfilter, -⟩ | ⟨-, hi⟩
      · exact absurd rfl (hi deadline)
      · cases hi
      · cases hi
      · simp [hfilter] at ht'
      · cases hi
  · exact h.act_asleep hstep ht

/-- A submit that makes the scheduler busy wakes whoever waits as the watchdog. -/
theorem Vigilant.wakes {s : Pool n} (h : s.Vigilant) {t t' : ThreadId} {e : Fin n} {rest : List (Instr n)}
    (hcode : s.code t' = .enqueue e :: rest) (hquiet : s.isBusy = false) (ht : t ∈ s.watchWaiters)
    (ht' : t ∈ (s.step t').watchWaiters) : (s.step t').isBusy = false := by
  obtain ⟨code, hstep, -⟩ := step_code hcode rfl
  rw [hstep] at ht' ⊢
  have ht' : t ∈ ((s.setCode t' rest).exec t' (.enqueue e)).1.watchWaiters := ht'
  show ((s.setCode t' rest).exec t' (.enqueue e)).1.isBusy = false
  revert ht'
  simp only [exec]
  split
  · split
    · rename_i s' hs'
      intro ht'
      have ht' : t ∈ s'.watchWaiters := ht'
      show s'.isBusy = false
      rcases (s.setCode t' rest).enqueue_vigil e hs' with rfl | ⟨-, -, htail | ⟨-, hbusy | hbusy⟩⟩
      · exact hquiet
      · have htail : s'.watchWaiters = s.watchWaiters.tail := htail
        rw [htail, (h.asleep t ht).1] at ht'
        cases ht'
      · exact absurd (hquiet.symm.trans hbusy) (by decide)
      · exact hbusy
    · exact fun _ => hquiet
  · exact fun _ => hquiet

/-- A thread that waits as a watchdog after a run began to do so at a step of the run, and has waited ever since. -/
structure LastWait (p : Pool n) (t : ThreadId) (actions before more : List (Action n)) : Prop where
  split : actions = before ++ .step t :: more
  begins : (p.run before).code t = [.beginWatch]
  asleep : ((p.run before).step t).Along (fun s a => t ∈ (s.act a).watchWaiters) more

theorem run_waits (config : SchedulerConfig) (context : Metrics.Context) (log : LogFilter) (hosts : Vector Host n)
    (actions : List (Action n)) {t : ThreadId} (ht : t ∈ ((create config context log hosts).run actions).watchWaiters) :
    ∃ before more, (create config context log hosts).LastWait t actions before more := by
  induction actions using List.reverseRecOn with
  | nil => cases ht
  | append_singleton actions a ih =>
    rw [run_append] at ht
    rcases act_waits (run_manning config context log hosts actions).fitted ht with hold | ⟨rfl, hcode⟩
    · obtain ⟨before, more, rfl, hbegins, hasleep⟩ := ih hold
      refine ⟨before, more ++ [a], by simp, hbegins, along_append.2 ⟨hasleep, ?_, trivial⟩⟩
      rw [run_append] at ht
      exact ht
    · exact ⟨actions, [], rfl, hcode, trivial⟩

end Pool

end FairShare.Scheduler

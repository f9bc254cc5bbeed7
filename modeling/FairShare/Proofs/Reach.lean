import FairShare.Proofs.Aftermath
import FairShare.Proofs.Aim
import FairShare.Proofs.Escalation
import FairShare.Proofs.Tally

/-!
# What a stop reaches

A stop lists the executors that the workers run, at one moment, and then raises the hard abort of each. From the moment
at which the list is made no slice is opened any more, so those that are missed are those that were being opened then:
a worker looks whether the scheduler stops before it starts the clock, and its slice is not published until after that.
Everybody else who works is hard aborted once the stop has gone through its list, and stays so until the slice ends.
-/

namespace FairShare.Scheduler

variable {n : Nat}

namespace Instr

variable {b b' : Books n} {g g' : Gear n} {i x : Instr n} {next : List (Instr n)}

/-- While the scheduler stops, whoever prepares the work of an executor has begun to before. -/
theorem Outcome.prepares (ho : Outcome b g i b' g' next) (hphase : b.phase ≠ .running) (hl : i.Leads next) {w : WorkerId}
    {e : Fin n} (hx : x ∈ next) (hp : x.prepares w e = true) : i.prepares w e = true := by
  rcases eq_of_prepares hp with rfl | ⟨a, rfl⟩
  · cases hl.yields hx
    cases ho with
    | begin _ _ hrunning => exact absurd hrunning hphase
    | skip => simp at hx
    | take i w' e' b' idle h' hi => rcases hi with ⟨hi, -⟩ | ⟨hi, -⟩ <;> cases hi
    | close i w' b' idle h' hp hi => rcases hi with ⟨hi, -⟩ | ⟨hi, -⟩ <;> cases hi
    | await i w' b' idle h' hp hi => rcases hi with ⟨hi, -⟩ | ⟨hi, -⟩ <;> cases hi
  · cases hl.yields hx
    simp

end Instr

namespace Books

open Instr

variable {b b' : Books n} {g g' : Gear n} {a : Action n} {e : Fin n}

/-- The stay of an executor does not end while a worker runs it. -/
theorem not_stays_of_current (hp : (b.account e).Placed) {w : WorkerId} (hcur : b.current[w]? = some (some e)) :
    b.todo.countP (stays e) = 0 := by
  have hpos : 0 < b.current.count (some e) := List.count_pos_iff.2 (List.mem_of_getElem? hcur)
  have hstay := stays_le_running hp
  have hone := running_le_one hp
  omega

/-- A hard abort stays up while a worker runs the executor, unless the host resets the timeout. -/
theorem hardAborted_goes (hp : (b.account e).Placed) (hclears : b.todo.countP (clears e) = 0) (hg : Goes b g a b' g')
    {w : WorkerId} (hcur : b.current[w]? = some (some e)) (hup : (g.timeout e).flags.hardAborted = true) :
    (g'.timeout e).flags.hardAborted = true := by
  cases hg with
  | step t i rest next b' g' ht hw he hl hd =>
    refine hd.hardAborted (fun slice hi => ?_) (fun hi => ?_) hup
    · have hz := List.countP_eq_zero.1 (not_stays_of_current hp hcur) i (mem_todo ht)
      simp [hi] at hz
    · have hz := List.countP_eq_zero.1 hclears i (mem_todo ht)
      simp [hi] at hz
  | _ => exact hup

theorem prepares_begins (w : WorkerId) (e : Fin n) (code : List (Instr n)) (h : Begins code) :
    code.countP (prepares w e) = 0 :=
  List.countP_eq_zero.2 fun _ hx => by
    rw [h.not_prepares hx]
    exact Bool.false_ne_true

/-- No slice is opened while the scheduler stops. -/
theorem prepares_goes (hphase : b.phase ≠ .running) (hg : Goes b g a b' g') {w : WorkerId}
    (hpos : 0 < b'.todo.countP (prepares w e)) : 0 < b.todo.countP (prepares w e) := by
  cases hg with
  | rest => exact hpos
  | advance => exact hpos
  | arrive c => rwa [countP_arrive] at hpos
  | perform t w' e' rest next a ht ha =>
    have hcount := countP_replace (prepares w e) ht next
    have hnext : next.countP (prepares w e) = 0 := by
      rw [List.countP_eq_zero]
      intro x hx
      cases ha.leads.yields hx <;> simp
    omega
  | step t i rest next b' g' ht hw he hl hd =>
    refine pos_step (prepares_begins w e) ht he (fun hnext => ?_) hpos
    obtain ⟨x, hx, hx'⟩ := List.countP_pos_iff.1 hnext
    exact List.countP_pos_iff.2 ⟨i, List.mem_singleton_self i, (outcome hw he hl hd).prepares hphase hl hx hx'⟩
  | tear t e' o rest ht hf => exact Nat.lt_of_lt_of_le hpos (countP_tear _ ht)

/-- A stop has still to abort some executors of its list. Another one is on a worker only if it is hard aborted, or was
missed as the worker was opening its slice when the list was made. -/
structure Sweep (b : Books n) (g : Gear n) (e : Fin n) (missed : WorkerId → Prop) (left : List (Fin n)) : Prop where
  /-- No slice is opened any more. -/
  stopping : b.phase ≠ .running
  /-- The host does not reset the timeout. -/
  clears : b.todo.countP (clears e) = 0
  /-- Whoever is opening a slice has been since the list was made. -/
  opening : ∀ w, 0 < b.todo.countP (prepares w e) → missed w
  reached : ∀ w, b.live[w]? = some true → b.current[w]? = some (some e) →
    (g.timeout e).flags.hardAborted = true ∨ e ∈ left ∨ missed w

theorem Sweep.goes {missed : WorkerId → Prop} {left : List (Fin n)} (h : b.Sweep g e missed left) (ho : b.Orderly)
    (hp : (b.account e).Placed) (ha : a.clears e = false) (hg : Goes b g a b' g') : b'.Sweep g' e missed left where
  stopping := Phase.ne_running (phase_goes hg) h.stopping
  clears := clears_goes h.clears ha hg
  opening w hpos := h.opening w (prepares_goes h.stopping hg hpos)
  reached w hlive hcur := by
    have hold : b.live[w]? = some true → b.current[w]? = some (some e) →
        (g'.timeout e).flags.hardAborted = true ∨ e ∈ left ∨ missed w := fun hlive hcur =>
      (h.reached w hlive hcur).imp_left (hardAborted_goes hp h.clears hg hcur)
    cases hg with
    | step t i rest next b' g' ht hw he hl hd =>
      have hout := outcome hw he hl hd
      rcases hout.current hcur with ⟨hcur', -⟩ | ⟨a, rfl⟩
      · have hcur' : b.current[w]? = some (some e) := hcur'
        have hlt : w < b.live.length := by
          rw [ho.lengths]
          exact (List.getElem?_eq_some_iff.1 hcur').1
        refine hold ?_ hcur'
        rcases hout.live (List.getElem?_eq_getElem hlt) with hkeep | ⟨-, -, -, hdown⟩
        · exact (List.getElem?_eq_getElem hlt).trans (hkeep.symm.trans hlive)
        · exact absurd (hdown.symm.trans hlive) (by simp)
      · exact Or.inr (Or.inr (h.opening w (List.countP_pos_iff.2 ⟨_, mem_todo ht, by simp⟩)))
    | _ => exact hold hlive hcur

end Books

namespace Pool

open Instr

variable {s : Pool n} {t : ThreadId} {e : Fin n} {missed : WorkerId → Prop} {left : List (Fin n)}

/-- The executors that the workers in the slots run. -/
def published (s : Pool n) : List (Fin n) := s.slots.filterMap fun slot => slot.bind s.current?

/-- Whether a thread that stops the scheduler is about to list those who run. -/
def aboutToCollect (s : Pool n) (t : ThreadId) : Bool :=
  match s.code t with
  | .collect _ :: _ => true
  | _ => false

theorem code_of_aboutToCollect (h : s.aboutToCollect t = true) :
    ∃ timeout rest, s.code t = .collect timeout :: rest := by
  unfold aboutToCollect at h
  split at h
  · rename_i timeout rest hcode
    exact ⟨timeout, rest, hcode⟩
  · cases h

/-- What a thread has to do once it has listed those who run. -/
theorem step_collect {timeout : Duration} {rest : List (Instr n)} (h : s.code t = .collect timeout :: rest) :
    (s.step t).code t =
      s.published.map (.call ∘ .hardAbort) ++ [.wakeWorkers, .beginStopWait timeout] ++ rest := by
  obtain ⟨thread, hthread⟩ := thread_of_code h
  exact (step_thread h rfl rfl hthread).1

/-- A call that raises the hard abort takes one step. -/
theorem step_hardAbort {rest : List (Instr n)} (h : s.code t = .call (.hardAbort e) :: rest) :
    (s.step t).code t = rest ∧ ((s.step t).flags e).hardAborted = true := by
  obtain ⟨thread, hthread⟩ := thread_of_code h
  refine ⟨(step_thread h rfl rfl (threads_setAnswer hthread _)).1, ?_⟩
  rw [step_eq h rfl rfl]
  show (((s.setCode t rest).modifyTimeout e (·.hardAbort)).executor e).timeout.flags.hardAborted = true
  rw [modifyTimeout, executor_modify]
  rfl

/-- A thread goes through the list of a stop. -/
structure Sweeps (s : Pool n) (t : ThreadId) (e : Fin n) (missed : WorkerId → Prop) (left : List (Fin n)) : Prop where
  sweep : s.books.Sweep s.gear e missed left
  ahead : ∃ rest, s.code t = left.map (.call ∘ .hardAbort) ++ rest

namespace Sweeps

/-- The thread aborts the first executor of its list. -/
theorem step (h : s.Sweeps t e missed left) (ho : s.books.Orderly) (hp : (s.books.account e).Placed) :
    (s.step t).Sweeps t e missed (left.drop 1) := by
  have hsweep := h.sweep.goes ho hp (a := .step t) rfl (act_goes s _)
  obtain ⟨rest, hcode⟩ := h.ahead
  cases left with
  | nil => exact ⟨hsweep, (s.step t).code t, rfl⟩
  | cons e₀ left =>
    obtain ⟨hcode', hup⟩ := step_hardAbort hcode
    refine ⟨{ hsweep with reached := fun w hlive hcur => ?_ }, rest, hcode'⟩
    rcases hsweep.reached w hlive hcur with hhard | hleft | hmissed
    · exact Or.inl hhard
    · rcases List.mem_cons.1 hleft with rfl | hleft
      · exact Or.inl hup
      · exact Or.inr (Or.inl hleft)
    · exact Or.inr (Or.inr hmissed)

/-- What others do leaves the thread where it is. -/
theorem act (h : s.Sweeps t e missed left) (ho : s.books.Orderly) (hp : (s.books.account e).Placed) {a : Action n}
    (hclear : a.clears e = false) (ha : a ≠ .step t) : (s.act a).Sweeps t e missed left := by
  have hsweep := h.sweep.goes ho hp hclear (act_goes s a)
  obtain ⟨rest, hcode⟩ := h.ahead
  cases left with
  | nil => exact ⟨hsweep, (s.act a).code t, rfl⟩
  | cons e₀ left =>
    refine ⟨hsweep, rest, (act_code s ha (fun w e rest' hwork => ?_) (by simp [hcode])).trans hcode⟩
    rw [hcode] at hwork
    simp at hwork

theorem run (h : s.Sweeps t e missed left) (ho : s.books.Orderly) (hp : ∀ e, (s.books.account e).Placed)
    {more : List (Action n)} (hclears : ∀ a ∈ more, a.clears e = false) :
    (s.run more).Sweeps t e missed (left.drop (more.countP (·.isStep t))) := by
  have hrun := run_counted (P := fun k s => s.Sweeps t e missed (left.drop k))
    (fun s k ho hp _ h => List.drop_drop ▸ h.step ho (hp e))
    (fun s k a ho hp hclear ha h => h.act ho (hp e) hclear ha) (k := 0) ho hp h hclears
  rwa [Nat.zero_add] at hrun

end Sweeps

/-- When a stop is about to list those who run, everybody who runs is going to be on the list. -/
theorem sweep_of_collect (hm : s.Manning) {timeout : Duration} {rest : List (Instr n)}
    (hcode : s.code t = .collect timeout :: rest) (hclears : s.pending (clears e) = 0) :
    s.books.Sweep s.gear e (fun w => 0 < s.pending (prepares w e)) s.published where
  stopping := hm.manned.stopping (List.countP_pos_iff.2 ⟨_, Books.mem_todo (codes_of_code hcode), rfl⟩)
  clears := hclears
  opening _ hpos := hpos
  reached w hlive hcur := by
    obtain ⟨k, hk⟩ := hm.seated.holds w (Or.inl hlive)
    exact Or.inr (Or.inl (List.mem_filterMap.2 ⟨some w, List.mem_of_getElem? hk, (current_eq s w e).1 hcur⟩))

/-- Once a stop has gone through its list, whoever works on a worker that is not retired, or is about to begin, is hard
aborted, or its slice was being opened when the list was made. -/
theorem run_reaches (config : SchedulerConfig) (context : Metrics.Context) (log : LogFilter) (hosts : Vector Host n)
    (before after : List (Action n)) {t : ThreadId} {w : WorkerId} {e : Fin n}
    (hcollect : ((create config context log hosts).run before).aboutToCollect t = true)
    (hdone : ((create config context log hosts).run before).published.length ≤ after.countP (·.isStep t))
    (hclears : ((create config context log hosts).run before).pending (clears e) = 0 ∧ ∀ a ∈ after, a.clears e = false)
    (hlive : ((create config context log hosts).run (before ++ .step t :: after)).retired w = false)
    (hwork : 0 < ((create config context log hosts).run (before ++ .step t :: after)).pending (works w e)) :
    (((create config context log hosts).run (before ++ .step t :: after)).flags e).hardAborted = true ∨
      0 < ((create config context log hosts).run before).pending (prepares w e) := by
  have ho := run_orderly config context log hosts before
  have hp := run_placed config context log hosts before
  have hm := run_manning config context log hosts before
  have ho' := run_orderly config context log hosts (before ++ .step t :: after)
  rw [run_append] at hlive hwork ho' ⊢
  generalize (create config context log hosts).run before = s at hcollect hdone hclears hlive hwork ho hp hm ho' ⊢
  obtain ⟨timeout, rest, hcode⟩ := code_of_aboutToCollect hcollect
  have hstart : (s.act (.step t)).Sweeps t e (fun w => 0 < s.pending (prepares w e)) s.published := by
    have hsweep := (sweep_of_collect hm hcode hclears.1).goes ho (hp e) (a := .step t) rfl (act_goes s _)
    exact ⟨hsweep, _, (step_collect hcode).trans (List.append_assoc ..)⟩
  have hmoves := act_moves s (.step t)
  have hrun := hstart.run (ho.moves hmoves) (fun e => (hp e).move (hmoves.account ho e)) hclears.2
  rw [List.drop_eq_nil_of_le hdone] at hrun
  have hcur : (s.run (.step t :: after)).books.current[w]? = some (some e) := by
    refine (current_eq _ w e).2 ((current_or_retired ho' hwork).resolve_right ?_)
    rintro ⟨worker, hworker, hdown⟩
    simp [retired, hworker, hdown] at hlive
  have hlt : w < (s.run (.step t :: after)).workers.length := by
    simpa [books] using (List.getElem?_eq_some_iff.1 hcur).1
  rcases hrun.sweep.reached w ((retired_false hlt).1 hlive) hcur with hhard | hnil | hmissed
  · exact Or.inl hhard
  · cases hnil
  · exact Or.inr hmissed

/-! ## A slice that is reached, and one that is missed -/

/-- Thread 3 is about to list those who run when the work of the executor goes on. -/
def stopInWork : List (Action 1) := begun ++ .call (.stop (.ofMillis 10)) :: steps 3 1

theorem reaches_stopInWork :
    (lone.run stopInWork).aboutToCollect 3 = true ∧
      (lone.run stopInWork).published.length ≤ (steps 3 1).countP (·.isStep 3) ∧
      ((lone.run stopInWork).pending (clears only) = 0 ∧ ∀ a ∈ steps 3 1, a.clears only = false) ∧
      (lone.run (stopInWork ++ .step 3 :: steps 3 1)).retired 0 = false ∧
      0 < (lone.run (stopInWork ++ .step 3 :: steps 3 1)).pending (works 0 only) ∧
      (((lone.run (stopInWork ++ .step 3 :: steps 3 1)).flags only).hardAborted = true ∨
        0 < (lone.run stopInWork).pending (prepares 0 only)) := by
  have hcollect : (lone.run stopInWork).aboutToCollect 3 = true := by decide +kernel
  have hdone : (lone.run stopInWork).published.length ≤ (steps 3 1).countP (·.isStep 3) := by decide +kernel
  have hclears : (lone.run stopInWork).pending (clears only) = 0 ∧ ∀ a ∈ steps 3 1, a.clears only = false := by
    decide +kernel
  have hlive : (lone.run (stopInWork ++ .step 3 :: steps 3 1)).retired 0 = false := by decide +kernel
  have hwork : 0 < (lone.run (stopInWork ++ .step 3 :: steps 3 1)).pending (works 0 only) := by decide +kernel
  exact ⟨hcollect, hdone, hclears, hlive, hwork,
    run_reaches _ _ _ _ stopInWork (steps 3 1) hcollect hdone hclears hlive hwork⟩

/-- The worker has looked whether the scheduler stops when thread 3 stops it, and is about to start the clock when those
who run are listed. -/
def stopInOpening : List (Action 1) :=
  .call (.submit only) :: steps 0 2 ++ steps 2 4 ++ .call (.stop (.ofMillis 10)) :: steps 3 1

/-- The stop waits for the workers; then the slice is published, and its work begins. -/
def workBeginsLate : List (Action 1) := steps 3 2 ++ steps 2 6

/-- A stop lists nobody, as the only worker is opening its slice, and has nobody to abort. After that the work begins, on
a worker that is not retired, without a hard abort, and the stop gives up on it. -/
theorem opening_is_missed :
    ((lone.run stopInOpening).phase = .stopping ∧ (lone.run stopInOpening).aboutToCollect 3 = true ∧
      (lone.run stopInOpening).published = [] ∧ (lone.run stopInOpening).pending (works 0 only) = 0) ∧
    ((lone.run (stopInOpening ++ .step 3 :: workBeginsLate)).retired 0 = false ∧
      (lone.run (stopInOpening ++ .step 3 :: workBeginsLate)).atWork 2 0 only = true ∧
      ((lone.run (stopInOpening ++ .step 3 :: workBeginsLate)).flags only).hardAborted = false) ∧
    (lone.run (stopInOpening ++ .step 3 :: workBeginsLate ++ [.advance 10000000])).StopReturns 3
      (.error (.shutdownTimeout 1)) := by
  refine ⟨⟨by decide +kernel, by decide +kernel, by decide +kernel, by decide +kernel⟩,
    ⟨by decide +kernel, by decide +kernel, by decide +kernel⟩, ?_⟩
  have hcount : (lone.run (stopInOpening ++ .step 3 :: workBeginsLate ++ [.advance 10000000])).workerCount = 1 := by
    decide +kernel
  have hreturns := stopReturns_error (s := lone.run (stopInOpening ++ .step 3 :: workBeginsLate ++ [.advance 10000000]))
    (t := 3) (by decide +kernel) (by omega)
  rwa [hcount] at hreturns

end Pool

end FairShare.Scheduler

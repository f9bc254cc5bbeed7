import FairShare.Proofs.RunQueue

/-!
# Exclusive admission

An executor occupies one worker at a time. The thread of a worker that was retired over it may still be within
its work when another worker takes it, but then that thread is no more its executor's than the retired worker
is the scheduler's: at most one thread is within the work of an executor on a worker that has its slice.
-/

namespace FairShare.Scheduler

variable {n : Nat}

/-- What is in a list once is in one place. -/
theorem index_unique {α : Type} [BEq α] [LawfulBEq α] {l : List α} {a : α} (h : l.count a ≤ 1) {i j : Nat}
    (hi : l[i]? = some a) (hj : l[j]? = some a) : i = j := by
  induction l generalizing i j with
  | nil => simp at hi
  | cons b l ih =>
    have hpos : ∀ {k : Nat}, l[k]? = some a → 0 < l.count a := fun hk =>
      List.count_pos_iff.2 (List.mem_of_getElem? hk)
    rw [List.count_cons] at h
    cases i with
    | zero =>
      cases j with
      | zero => rfl
      | succ j =>
        obtain rfl : b = a := by simpa using hi
        have := hpos (k := j) (by simpa using hj)
        simp at h
        omega
    | succ i =>
      cases j with
      | zero =>
        obtain rfl : b = a := by simpa using hj
        have := hpos (k := i) (by simpa using hi)
        simp at h
        omega
      | succ j =>
        have hij : i = j := ih (by omega) (by simpa using hi) (by simpa using hj)
        rw [hij]

namespace Pool

open Instr

/-- Whether an instruction is within the work of an executor, or about to be. -/
def inside (e : Fin n) : Instr n → Bool
  | .callWork _ e' | .work _ e' => e' = e
  | _ => false

/-- Whether an instruction is within the work of an executor, or about to be, on a worker that has its slice. -/
def within (s : Pool n) (e : Fin n) : Instr n → Bool
  | .callWork w e' | .work w e' => e' = e && s.current? w = some e
  | _ => false

theorem inside_elim {e : Fin n} {i : Instr n} (h : inside e i = true) : ∃ w, i.works w e = true := by
  cases i with
  | callWork w e' => exact ⟨w, by simpa [inside] using h⟩
  | work w e' => exact ⟨w, by simpa [inside] using h⟩
  | _ => cases h

theorem within_elim {s : Pool n} {e : Fin n} {i : Instr n} (h : s.within e i = true) :
    ∃ w, i.works w e = true ∧ s.current? w = some e := by
  cases i with
  | callWork w e' => exact ⟨w, by simpa [within] using h⟩
  | work w e' => exact ⟨w, by simpa [within] using h⟩
  | _ => cases h

theorem within_intro {s : Pool n} {w : WorkerId} {e : Fin n} {i : Instr n} (h : i.works w e = true)
    (hc : s.current? w = some e) : s.within e i = true := by
  cases i with
  | callWork w' e' =>
    obtain ⟨rfl, rfl⟩ : w' = w ∧ e' = e := by simpa using h
    simp [within, hc]
  | work w' e' =>
    obtain ⟨rfl, rfl⟩ : w' = w ∧ e' = e := by simpa using h
    simp [within, hc]
  | _ => cases h

/-- Whoever is within the work of an executor has its slice, unless the worker is retired. -/
theorem current_or_retired {s : Pool n} (ho : s.books.Orderly) {w : WorkerId} {e : Fin n} (h : 0 < s.pending (works w e)) :
    s.current? w = some e ∨ ∃ worker, s.workers[w]? = some worker ∧ worker.live = false := by
  have hclose : 0 < s.books.todo.countP (closes w e) := Nat.lt_of_lt_of_le h (ho.works_le w e)
  refine (ho.staffed.exposed w e hclose).imp (current_eq s w e).1 fun hlive => ?_
  simpa [books] using hlive

/-- Every executor occupies one worker at a time. -/
structure Admitted (s : Pool n) : Prop where
  /-- At most one worker has a slice of an executor. -/
  worker : ∀ e, s.workers.countP (fun worker => worker.current = some e) ≤ 1
  /-- At most one thread is within the work of an executor on a worker that has its slice. -/
  thread : ∀ e, s.pending (s.within e) ≤ 1
  /-- Whatever other thread is within its work, the worker of that thread is retired. -/
  abandoned : ∀ w e, 0 < s.pending (works w e) →
    s.current? w = some e ∨ ∃ worker, s.workers[w]? = some worker ∧ worker.live = false
  /-- As long as the thread of no retired worker is within the work of an executor, at most one thread is. -/
  alone : ∀ e, (∀ w worker, s.workers[w]? = some worker → worker.live = false → s.pending (works w e) = 0) →
    s.pending (inside e) ≤ 1

/-- Every executor occupies one worker at a time in any run. -/
theorem run_admitted (config : SchedulerConfig) (context : Metrics.Context) (log : LogFilter)
    (hosts : Vector Host n) (actions : List (Action n)) :
    ((create config context log hosts).run actions).Admitted := by
  have hp := run_placed config context log hosts actions
  have ho := run_orderly config context log hosts actions
  generalize (create config context log hosts).run actions = s at hp ho
  have hcount : ∀ e, s.books.current.count (some e) ≤ 1 := by
    intro e
    have hstay := Books.stays_le_running (hp e)
    have hone := Books.running_le_one (hp e)
    omega
  have hworks : ∀ w e, s.pending (works w e) ≤ s.pending (closes w e) := ho.works_le
  have hone : ∀ w e, s.pending (works w e) ≤ 1 := fun w e =>
    Nat.le_trans (hworks w e) (Nat.le_trans (Books.closes_le_slices w e _) (ho.one_slice w))
  have hthread : ∀ e, s.pending (s.within e) ≤ 1 := by
    intro e
    by_cases hw : ∃ w, s.current? w = some e
    · obtain ⟨w, hw⟩ := hw
      refine Nat.le_trans (List.countP_mono_left fun i _ hi => ?_) (hone w e)
      have huniq : ∀ w', s.current? w' = some e → w' = w := fun w' hw' =>
        index_unique (hcount e) ((current_eq s w' e).2 hw') ((current_eq s w e).2 hw)
      obtain ⟨w', hi, hw'⟩ := within_elim hi
      rw [huniq w' hw'] at hi
      exact hi
    · have hz : s.pending (s.within e) = 0 := by
        refine List.countP_eq_zero.2 fun i _ hi => ?_
        obtain ⟨w, -, hc⟩ := within_elim hi
        exact hw ⟨w, hc⟩
      omega
  constructor
  case worker =>
    intro e
    refine Nat.le_trans (Nat.le_of_eq ?_) (hcount e)
    show _ = (s.workers.map (·.current)).count (some e)
    rw [List.count_eq_countP, List.countP_map]
    refine List.countP_congr fun worker _ => ?_
    simp
  case thread => exact hthread
  case abandoned => exact fun w e => current_or_retired ho
  case alone =>
    intro e hnone
    refine Nat.le_trans (List.countP_mono_left fun i hi hin => ?_) (hthread e)
    obtain ⟨w, hw⟩ := inside_elim hin
    have hpos : 0 < s.pending (works w e) := List.countP_pos_iff.2 ⟨i, hi, hw⟩
    rcases current_or_retired ho hpos with hcur | ⟨worker, hget, hret⟩
    · exact within_intro hw hcur
    · rw [hnone w worker hget hret] at hpos
      exact absurd hpos (Nat.lt_irrefl 0)

/-- The work submits its executor again and does not return. The watchdog abandons its worker, and the worker that
replaces it, on thread 3, begins the work another time. -/
def abandonedOnce : List (Action 1) :=
  begun ++ [.work 2 (.call (.submit only)), .step 2] ++ steps 1 3 ++ [.advance 20000000000] ++ steps 1 16 ++
    steps 3 10

/-- Two threads are within the work of an executor when the worker of one of them was abandoned: the work has begun
twice and did not end. -/
theorem abandoned_work_goes_on :
    ((lone.run abandonedOnce).code 2).countP (inside 0) = 1 ∧
      ((lone.run abandonedOnce).code 3).countP (inside 0) = 1 ∧
      (lone.run abandonedOnce).current? 0 = none ∧ (lone.run abandonedOnce).current? 1 = some 0 ∧
      (lone.run abandonedOnce).history.toList.countP (· matches .workBegan _ _) = 2 ∧
      (lone.run abandonedOnce).history.toList.countP (· matches .workEnded _ _ _) = 0 := by
  decide +kernel

end Pool

end FairShare.Scheduler

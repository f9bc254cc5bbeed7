import FairShare.Proofs.Effect

/-!
# Moves

What one action does to the books of a pool, whatever the action, and the induction over runs that follows
from it: what holds of the books at the start and is kept by every move holds after every run.
-/

namespace FairShare.Scheduler

variable {n : Nat}

namespace Books

/-- The books of a scheduler that was not used yet. -/
def start : Books n where
  phase := .running
  queue := []
  running := []
  stage _ := .idle
  unloaded _ := false
  runtime _ := 0
  marks _ := []
  faults := []
  current := []
  live := []
  codes := []

/-- What one action does to the books. -/
inductive Moves (b : Books n) : Books n → Prop where
  /-- Nothing. -/
  | rest : Moves b b
  /-- A thread begins with a call. -/
  | arrive (c : Call n) : Moves b { b with codes := b.codes ++ [[.call c]] }
  /-- A thread carries out an instruction. -/
  | step (t : ThreadId) (i : Instr n) (rest next : List (Instr n)) (b' : Books n)
      (ht : b.codes[t]? = some (i :: rest))
      (he : i.Effect { b with codes := b.codes.set t rest } b' next) (hl : i.Leads next) :
      Moves b { b' with codes := b'.codes.set t (next ++ rest) }
  /-- A thread is torn down by an observation that fails. -/
  | tear (t : ThreadId) (e : Fin n) (o : Metrics.Observation) (rest : List (Instr n))
      (ht : b.codes[t]? = some (.account e o :: rest)) :
      Moves b { b with codes := b.codes.set t [] }

end Books

namespace Pool

theorem codes_of_code {s : Pool n} {t : ThreadId} {i : Instr n} {rest : List (Instr n)}
    (h : s.code t = i :: rest) : s.books.codes[t]? = some (i :: rest) := by
  rw [code_eq] at h
  cases hc : s.books.codes[t]? with
  | none => simp [hc] at h
  | some code => simpa [hc] using h

theorem step_moves (s : Pool n) (t : ThreadId) : s.books.Moves (s.step t).books := by
  unfold step
  cases hcode : s.code t with
  | nil => exact .rest
  | cons i rest =>
    have ht := codes_of_code hcode
    simp only
    split
    · exact .rest
    · have hb : (s.setCode t rest).books = { s.books with codes := s.books.codes.set t rest } :=
        books_setCode s t rest
      have hl := fun next => @exec_leads n (s.setCode t rest) t i next
      have he := fun next => @exec_effect n (s.setCode t rest) t i next
      have hn := exec_none (s.setCode t rest) t i
      generalize (s.setCode t rest).exec t i = r at hl he hn ⊢
      obtain ⟨s', next⟩ := r
      simp only at hl he hn ⊢
      rw [books_setCode]
      cases next with
      | some front =>
        rw [hb] at he
        exact .step t i rest front s'.books ht (he front rfl) (hl front rfl)
      | none =>
        obtain ⟨⟨e, o, rfl⟩, hs'⟩ := hn rfl
        rw [hs', hb]
        simp only [List.set_set]
        exact .tear t e o rest ht

/-- What the work of an executor does leaves the books alone, but for its thread. -/
theorem books_perform (s : Pool n) (w : WorkerId) (e : Fin n) (a : WorkAction n) :
    (s.perform w e a).1.books = s.books ∧ (Instr.work w e).Leads (s.perform w e a).2 := by
  cases a with
  | call c => exact ⟨rfl, Or.inl ⟨_, Or.inl ⟨c, rfl⟩, rfl⟩⟩
  | sleep nanos => exact ⟨rfl, Or.inl ⟨_, Or.inr (Or.inl ⟨_, rfl⟩), rfl⟩⟩
  | observe o => exact ⟨rfl, Or.inl ⟨_, Or.inr (Or.inr ⟨o, rfl⟩), rfl⟩⟩
  | allocate bytes =>
    exact ⟨books_modifyWorker_keep s w (fun _ => rfl) fun _ => rfl, Or.inr (Or.inl rfl)⟩
  | finish result => exact ⟨books_emit_plain s rfl rfl, Or.inr (Or.inr ⟨result, rfl⟩)⟩

/-- Every action is a move of the books. -/
theorem act_moves (s : Pool n) (a : Action n) : s.books.Moves (s.act a).books := by
  cases a with
  | step t => exact step_moves s t
  | call c =>
    have h : (s.act (.call c)).books = { s.books with codes := s.books.codes ++ [[.call c]] } := by
      simp [act, books, executor]
    rw [h]
    exact .arrive c
  | work t a =>
    simp only [act]
    split
    · rename_i w e rest hcode
      obtain ⟨hb, hl⟩ := books_perform s w e a
      have ht := codes_of_code hcode
      have hstep := Books.Moves.step t (.work w e) rest _ _ ht rfl hl
      simp only [List.set_set] at hstep
      simp only [books_setCode, hb]
      exact hstep
    · exact .rest
  | advance nanos => exact .rest
  | release => exact .rest

theorem books_create (config : SchedulerConfig) (context : Metrics.Context) (log : LogFilter)
    (hosts : Vector Host n) : (create config context log hosts).books = .start := by
  simp [create, books, Books.start, executor, Executor.create]

/-- What holds of the books at the start and is kept by every move holds after every run. -/
theorem run_invariant {P : Books n → Prop} (hstart : P .start)
    (hmoves : ∀ b b' : Books n, P b → b.Moves b' → P b') (config : SchedulerConfig)
    (context : Metrics.Context) (log : LogFilter) (hosts : Vector Host n) (actions : List (Action n)) :
    P ((create config context log hosts).run actions).books := by
  have hrun : ∀ s : Pool n, P s.books → P (s.run actions).books := by
    intro s hs
    induction actions generalizing s with
    | nil => exact hs
    | cons a actions ih => exact ih (s.act a) (hmoves _ _ hs (act_moves s a))
  refine hrun _ ?_
  rw [books_create]
  exact hstart

end Pool

end FairShare.Scheduler

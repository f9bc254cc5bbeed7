import FairShare.Proofs.Admission
import FairShare.Proofs.Vigil

/-!
# The return of a slice that was taken over

The watchdog takes the slice of a worker over while its thread is still within the work. When that work returns, its
result is dealt with before anybody looks whether the slice is still there: the error is kept and reported, and after a
fatal one the host is told to tear the computer down. Apart from these two steps the thread does nothing any more.
-/

namespace FairShare.Scheduler

variable {n : Nat}

open Instr

namespace WorkResult

/-- The explanation of a result, unless the work is done. -/
def message? : WorkResult → Option String
  | ok => none
  | error e => some e.message
  | crashed reason => some (crashReason reason)

/-- Whether the host is told to tear the computer down. -/
def isFatal : WorkResult → Bool
  | ok => false
  | error e => e.isFatal
  | crashed _ => true

/-- What is reported of a result with an explanation. -/
def notice (r : WorkResult) (computer : ComputerId) (reason : String) : Notice :=
  if r.isFatal then .failed computer reason else .stopped computer reason

/-- What comes of a result before the slice is closed. -/
def teardown (r : WorkResult) (e : Fin n) : List (Instr n) := if r.isFatal then [.callHost e .abortWithError] else []

end WorkResult

/-- Whether an action is the next step of a thread. -/
def Action.isStep (t : ThreadId) : Action n → Bool
  | .step t' => t' = t
  | _ => false

@[simp] theorem Action.isStep_iff {t : ThreadId} {a : Action n} : a.isStep t = true ↔ a = .step t := by
  cases a <;> simp [Action.isStep]

/-- An executor that ended with an error, or with none. -/
def Executor.blame (x : Executor) (error : Option String) : Executor := { x with lastError := error }

namespace Pool

/-- What each step of a thread moves on by one and nothing else moves is where it is, after a run, by how many steps the
thread took in it. -/
theorem run_counted {P : Nat → Pool n → Prop} {A : Action n → Prop} {t : ThreadId}
    (hstep : ∀ s k, s.books.Orderly → (∀ e, (s.books.account e).Placed) → A (.step t) → P k s → P (k + 1) (s.step t))
    (hother : ∀ s k a, s.books.Orderly → (∀ e, (s.books.account e).Placed) → A a → a ≠ .step t → P k s →
      P k (s.act a))
    {s : Pool n} {k : Nat} (ho : s.books.Orderly) (hp : ∀ e, (s.books.account e).Placed) (h : P k s)
    {more : List (Action n)} (hallowed : ∀ a ∈ more, A a) :
    P (k + more.countP (·.isStep t)) (s.run more) := by
  induction more generalizing s k with
  | nil => exact h
  | cons a more ih =>
    rw [List.forall_mem_cons] at hallowed
    have hm := act_moves s a
    have hrun : ∀ {k}, P k (s.act a) → P (k + more.countP (·.isStep t)) (s.run (a :: more)) := fun h =>
      ih (ho.moves hm) (fun e => (hp e).move (hm.account ho e)) h hallowed.2
    by_cases ha : a = .step t
    · subst ha
      rw [List.countP_cons_of_pos (by simp), Nat.add_comm (more.countP _) 1, ← Nat.add_assoc]
      exact hrun (hstep s k ho hp hallowed.1 h)
    · rw [List.countP_cons_of_neg (by simpa using ha)]
      exact hrun (hother s k a ho hp hallowed.1 ha h)

section Soon

variable {s : Pool n} {t : ThreadId} {k : Nat}

/-- Within some steps of its own a thread comes to where something is true of what was done until then, whatever others do
meanwhile. -/
def Soon (t : ThreadId) (k : Nat) (P : List (Action n) → Prop) : Prop :=
  ∀ more : List (Action n), k ≤ more.countP (·.isStep t) → ∃ now later, more = now ++ later ∧ P now

/-- Nobody but a thread itself does anything about what it has to do. -/
theorem code_until (hnil : s.code t ≠ []) (hwork : ∀ w e rest, s.code t ≠ .work w e :: rest) {pre : List (Action n)}
    (hpre : ∀ a ∈ pre, a ≠ .step t) : (s.run pre).code t = s.code t := by
  induction pre generalizing s with
  | nil => rfl
  | cons a pre ih =>
    rw [List.forall_mem_cons] at hpre
    have hkeep := act_code s hpre.1 hwork hnil
    exact (ih (hkeep.symm ▸ hnil) (hkeep.symm ▸ hwork) hpre.2).trans hkeep

theorem exists_first_step {more : List (Action n)} (hk : k + 1 ≤ more.countP (·.isStep t)) :
    ∃ pre post, more = pre ++ .step t :: post ∧ (∀ a ∈ pre, a ≠ .step t) ∧ k ≤ post.countP (·.isStep t) := by
  induction more with
  | nil => simp at hk
  | cons a more ih =>
    by_cases hstep : a = .step t
    · subst hstep
      rw [List.countP_cons_of_pos (by simp)] at hk
      exact ⟨[], more, rfl, by simp, Nat.le_of_succ_le_succ hk⟩
    · rw [List.countP_cons_of_neg (by simpa using hstep)] at hk
      obtain ⟨pre, post, rfl, hpre, hpost⟩ := ih hk
      exact ⟨a :: pre, post, rfl, List.forall_mem_cons.2 ⟨hstep, hpre⟩, hpost⟩

theorem Soon.here {P : List (Action n) → Prop} (h : P []) : Soon t k P := fun more _ => ⟨[], more, rfl, h⟩

theorem Soon.step {P : List (Action n) → Prop} {i : Instr n} {rest : List (Instr n)} (hcode : s.code t = i :: rest)
    (hwork : ∀ w e, i ≠ .work w e)
    (h : ∀ pre, (∀ a ∈ pre, a ≠ .step t) → (s.run pre).code t = i :: rest →
      Soon t k fun now => P (pre ++ .step t :: now)) : Soon t (k + 1) P := by
  intro more hk
  obtain ⟨pre, post, rfl, hpre, hpost⟩ := exists_first_step hk
  have hcode' : (s.run pre).code t = i :: rest := by
    rw [code_until (by simp [hcode]) (fun w e rest' hw => hwork w e (List.cons.inj (hcode.symm.trans hw)).1) hpre, hcode]
  obtain ⟨now, later, rfl, hp⟩ := h pre hpre hcode' post hpost
  exact ⟨pre ++ .step t :: now, later, by simp, hp⟩

theorem Soon.mono {P Q : List (Action n) → Prop} {k' : Nat} (h : Soon t k P) (hle : k ≤ k') (hpq : ∀ now, P now → Q now) :
    Soon t k' Q := by
  intro more hk
  obtain ⟨now, later, rfl, hp⟩ := h more (Nat.le_trans hle hk)
  exact ⟨now, later, rfl, hpq now hp⟩

theorem run_through (s : Pool n) (pre now : List (Action n)) (a : Action n) :
    s.run (pre ++ a :: now) = ((s.run pre).act a).run now := s.run_append pre (a :: now)

end Soon

/-- An executor keeps the explanation of a result, and it is reported. -/
def remark (s : Pool n) (e : Fin n) (r : WorkResult) : Pool n :=
  match r.message? with
  | none => s
  | some reason =>
    (s.report (r.notice (s.executor e).host.computer reason)).modify e (·.blame (some reason))

theorem handle_eq (s : Pool n) (e : Fin n) (r : WorkResult) : s.handle e r = (s.remark e r, r.teardown e) := by
  cases r with
  | ok => rfl
  | crashed reason => rfl
  | error error => cases error <;> rfl

@[simp] theorem workers_remark (s : Pool n) (e : Fin n) (r : WorkResult) : (s.remark e r).workers = s.workers := by
  unfold remark
  split <;> rfl

@[simp] theorem threads_remark (s : Pool n) (e : Fin n) (r : WorkResult) : (s.remark e r).threads = s.threads := by
  unfold remark
  split <;> rfl

@[simp] theorem workers_callHost (s : Pool n) (e : Fin n) (callback : Callback) :
    (s.callHost e callback).workers = s.workers := by
  unfold callHost
  simp only
  split <;> rfl

@[simp] theorem threads_callHost (s : Pool n) (e : Fin n) (callback : Callback) :
    (s.callHost e callback).threads = s.threads := by
  unfold callHost
  simp only
  split <;> rfl

/-- Whether a thread is within the work of an executor on a worker, and that may return. -/
def atWork (s : Pool n) (t : ThreadId) (w : WorkerId) (e : Fin n) : Bool :=
  match s.code t with
  | .work w' e' :: _ => w' = w && e' = e
  | _ => false

theorem code_of_atWork {s : Pool n} {t : ThreadId} {w : WorkerId} {e : Fin n} (h : s.atWork t w e = true) :
    ∃ rest, s.code t = .work w e :: rest := by
  unfold atWork at h
  split at h
  · rename_i w' e' rest hcode
    obtain ⟨rfl, rfl⟩ : w' = w ∧ e' = e := by simpa using h
    exact ⟨rest, hcode⟩
  · cases h

/-- What is left of a slice that was taken over when its work returns: its result is dealt with in the first step of the
thread, and the host is told of a failure in the second one. -/
def echo (s : Pool n) (e : Fin n) (r : WorkResult) (steps : Nat) : Pool n :=
  if steps = 0 then s.remark e r
  else if steps = 1 ∧ r.isFatal then s.callHost e .abortWithError
  else s

end Pool

namespace Books

variable {b b' : Books n} {g g' : Gear n} {a : Action n}

/-- A worker stays retired. -/
theorem retired_goes (hg : Goes b g a b' g') {w : WorkerId} (h : b.live[w]? = some false) : b'.live[w]? = some false := by
  cases hg with
  | step t i rest next b' g' ht hw he hl hd =>
    rcases (outcome hw he hl hd).live h with hb | ⟨hup, -⟩
    · exact hb
    · cases hup
  | _ => exact h

/-- A worker whose thread is about to close a slice that was taken over gets no other one before it is closed. -/
theorem untaken_goes (ho : b.Orderly) (hf : b.Fitted) (hg : Goes b g a b' g') {t : ThreadId} {w : WorkerId}
    {code : List (Instr n)} (ht : b.codes[t]? = some code) (hnext : .nextSlice w ∈ code)
    (hpublish : ∀ e d, .publish w e d ∉ code) (h : ∀ e, b.current[w]? ≠ some (some e)) (e : Fin n) :
    b'.current[w]? ≠ some (some e) := by
  intro hc
  cases hg with
  | step t' i rest next b' g' ht' hw he hl hd =>
    rcases (outcome hw he hl hd).current hc with ⟨hold, -⟩ | ⟨d, rfl⟩
    · exact h e hold
    · have hrest : rest = [.nextSlice w] := (hf _ (List.mem_of_getElem? ht')).1
      obtain rfl := ho.thread_unique ht ht' hnext (by simp [hrest])
      rw [ht] at ht'
      exact hpublish e d (Option.some.inj ht' ▸ List.mem_cons_self ..)
  | _ => exact h e hc

end Books

/-! ## The way out -/

/-- What a thread has to do some steps after it returned from the work of a slice. -/
inductive WayOut (w : WorkerId) (e : Fin n) (r : WorkResult) : Nat → List (Instr n) → Prop where
  /-- It deals with the result. -/
  | result (a : UInt64) : WayOut w e r 0 [.handle e r, .closeSlice w e a, .nextSlice w]
  /-- It tells the host of a failure. -/
  | teardown (a : UInt64) (hr : r.isFatal = true) :
      WayOut w e r 1 [.callHost e .abortWithError, .closeSlice w e a, .nextSlice w]
  /-- It goes through its last steps, once it has dealt with the result. -/
  | rest (k : Nat) (code : List (Instr n)) (hk : 0 < k) (hr : r.isFatal = true → 1 < k)
      (hcode : (∃ a, code = [.closeSlice w e a, .nextSlice w]) ∨ code = [.nextSlice w] ∨ code = [.retire w] ∨
        code = []) :
      WayOut w e r k code

theorem WayOut.not_work {w w' : WorkerId} {e e' : Fin n} {r : WorkResult} {k : Nat} {code rest : List (Instr n)}
    (h : WayOut w e r k code) : code ≠ .work w' e' :: rest := by
  rintro rfl
  cases h with
  | rest _ _ _ _ hcode => rcases hcode with ⟨a, ha⟩ | ha | ha | ha <;> cases ha

/-- Whoever has a slice to close on its way out is the thread of the worker, and publishes no other one. -/
theorem WayOut.close {w : WorkerId} {e : Fin n} {r : WorkResult} {k : Nat} {code : List (Instr n)} {a : UInt64}
    (h : WayOut w e r k code) (hc : .closeSlice w e a ∈ code) :
    .nextSlice w ∈ code ∧ ∀ e' b, .publish w e' b ∉ code := by
  cases h with
  | result b => simp
  | teardown b => simp
  | rest _ _ _ _ hcode => rcases hcode with ⟨b, rfl⟩ | rfl | rfl | rfl <;> simp at hc ⊢

namespace Pool

variable {s : Pool n} {t : ThreadId} {w : WorkerId} {e : Fin n} {r : WorkResult} {k : Nat}

/-- A thread is on its way out of a slice that was taken over. -/
structure Late (s : Pool n) (t : ThreadId) (w : WorkerId) (e : Fin n) (r : WorkResult) (k : Nat) : Prop where
  there : t < s.threads.length
  way : WayOut w e r k (s.code t)
  retired : ∃ worker, s.workers[w]? = some worker ∧ worker.live = false
  /-- As long as it has the slice to close, no other one is there. -/
  taken : ∀ a, .closeSlice w e a ∈ s.code t → s.current? w = none

theorem setCode_self (s : Pool n) (t : ThreadId) : s.setCode t (s.code t) = s := by
  have hthreads : s.threads.modify t (fun thread => { thread with code := s.code t }) = s.threads := by
    refine List.ext_getElem? fun j => ?_
    rw [List.getElem?_modify]
    by_cases hj : t = j
    · subst hj
      unfold Pool.code
      cases s.threads[t]? <;> simp
    · simp [hj]
  exact congrArg (fun threads => ({ s with threads } : Pool n)) hthreads

/-- Withdrawing a slice that is not there changes nothing. -/
theorem withdraw_none (h : s.current? w = none) :
    s.modifyWorker w (fun worker => { worker with current := none }) = s := by
  have hworkers : s.workers.modify w (fun worker => { worker with current := none }) = s.workers := by
    refine List.ext_getElem? fun j => ?_
    rw [List.getElem?_modify]
    by_cases hj : w = j
    · subst hj
      unfold current? at h
      cases hw : s.workers[w]? with
      | none => rfl
      | some worker =>
        rw [hw] at h
        have hc : worker.current = none := h
        rw [← hc]
        simp
    · simp [hj]
  exact congrArg (fun workers => ({ s with workers } : Pool n)) hworkers

theorem setCode_setCode (s : Pool n) (t : ThreadId) (code code' : List (Instr n)) :
    (s.setCode t code).setCode t code' = s.setCode t code' := by
  have hthreads : (s.threads.modify t fun thread => { thread with code }).modify t
        (fun thread => { thread with code := code' }) =
      s.threads.modify t fun thread => { thread with code := code' } := List.modify_modify_eq ..
  exact congrArg (fun threads => ({ s with threads } : Pool n)) hthreads

theorem remark_setCode (s : Pool n) (t : ThreadId) (code : List (Instr n)) (e : Fin n) (r : WorkResult) :
    (s.setCode t code).remark e r = (s.remark e r).setCode t code := by
  unfold remark
  split <;> rfl

theorem callHost_setCode (s : Pool n) (t : ThreadId) (code : List (Instr n)) (e : Fin n) (callback : Callback) :
    (s.setCode t code).callHost e callback = (s.callHost e callback).setCode t code := by
  have hhost : ((s.setCode t code).executor e).host = (s.executor e).host := rfl
  unfold callHost
  rw [hhost]
  simp only
  split <;> rfl

/-- What a step does that leads from a pool to another one, apart from what the thread has to do. -/
theorem step_apart {s' : Pool n} {i : Instr n} {rest next : List (Instr n)} (h : s.code t = i :: rest)
    (hw : s.mustWait t i = false) (he : (s.setCode t rest).exec t i = (s'.setCode t rest, some next)) :
    s.step t = s'.setCode t (next ++ rest) := by
  rw [step_eq h hw he, setCode_setCode]

theorem step_handle {rest : List (Instr n)} (h : s.code t = .handle e r :: rest) :
    s.step t = (s.remark e r).setCode t (r.teardown e ++ rest) := by
  refine step_apart h rfl ?_
  simp only [exec, handle_eq, remark_setCode]
  rfl

theorem step_callHost {callback : Callback} {rest : List (Instr n)} (h : s.code t = .callHost e callback :: rest) :
    s.step t = (s.callHost e callback).setCode t rest := by
  have he : (s.setCode t rest).exec t (.callHost e callback) = ((s.callHost e callback).setCode t rest, some []) := by
    simp only [exec, callHost_setCode]
  exact step_apart h rfl he

/-- Closing a slice that is not there changes nothing. -/
theorem step_close_none {a : UInt64} {rest : List (Instr n)} {worker : Worker n}
    (h : s.code t = .closeSlice w e a :: rest) (hworker : s.workers[w]? = some worker) (hnone : s.current? w = none) :
    s.step t = s.setCode t rest := by
  have hcurrent : worker.current = none := by simpa [current?, hworker] using hnone
  have he : (s.setCode t rest).exec t (.closeSlice w e a) = (s.setCode t rest, some []) := by
    have hw : (s.setCode t rest).workers[w]? = some worker := hworker
    simp only [exec, hw, withdraw_none (s := s.setCode t rest) hnone, hcurrent]
    rfl
  exact step_apart h rfl he

/-- A retired worker gets no other slice. -/
theorem step_next_retired {rest : List (Instr n)} {worker : Worker n} (h : s.code t = .nextSlice w :: rest)
    (hworker : s.workers[w]? = some worker) (hlive : worker.live = false) :
    s.step t = s.setCode t (.retire w :: rest) := by
  have he : (s.setCode t rest).exec t (.nextSlice w) = (s.setCode t rest, some [.retire w]) := by
    have hw : (s.setCode t rest).workers[w]? = some worker := hworker
    simp only [exec, hw, hlive]
    rfl
  exact step_apart h rfl he

/-- A retired worker is not retired again. -/
theorem step_retire_retired {rest : List (Instr n)} {worker : Worker n} (h : s.code t = .retire w :: rest)
    (hworker : s.workers[w]? = some worker) (hlive : worker.live = false) : s.step t = s.setCode t rest := by
  have he : (s.setCode t rest).exec t (.retire w) = (s.setCode t rest, some []) := by
    have hw : (s.setCode t rest).workers[w]? = some worker := hworker
    simp only [exec, hw, hlive]
    rfl
  exact step_apart h rfl he

namespace Late

theorem of_step {s' : Pool n} {code : List (Instr n)} (h : s.Late t w e r k) (hstep : s.step t = s'.setCode t code)
    (hthreads : s'.threads = s.threads) (hworkers : s'.workers = s.workers) (hne : s.code t ≠ [])
    (hway : WayOut w e r (k + 1) code) (hclose : ∀ a, .closeSlice w e a ∈ code → .closeSlice w e a ∈ s.code t) :
    (s.step t).Late t w e r (k + 1) := by
  have hcode : (s'.setCode t code).code t = code := by
    obtain ⟨i, rest, hcons⟩ := List.exists_cons_of_ne_nil hne
    have hcons' : s'.code t = i :: rest := by
      unfold Pool.code at hcons ⊢
      rw [hthreads]
      exact hcons
    exact code_setCode_self hcons' code
  rw [hstep]
  refine ⟨?_, by rw [hcode]; exact hway, ?_, fun a ha => ?_⟩
  · show t < (s'.threads.modify t _).length
    rw [List.length_modify, hthreads]
    exact h.there
  · show ∃ worker, s'.workers[w]? = some worker ∧ worker.live = false
    rw [hworkers]
    exact h.retired
  · rw [hcode] at ha
    show (s'.workers[w]?).bind (·.current) = none
    rw [hworkers]
    exact h.taken a (hclose a ha)

/-- What the thread does in one step, apart from going on. -/
theorem step (h : s.Late t w e r k) :
    (∃ code, s.step t = (s.echo e r k).setCode t code) ∧ (s.step t).Late t w e r (k + 1) := by
  obtain ⟨worker, hworker, hlive⟩ := h.retired
  have hway := h.way
  have hgo : ∀ {s' : Pool n} {code : List (Instr n)}, s' = s.echo e r k → s.step t = s'.setCode t code →
      s'.threads = s.threads → s'.workers = s.workers → s.code t ≠ [] → WayOut w e r (k + 1) code →
      (∀ a, .closeSlice w e a ∈ code → .closeSlice w e a ∈ s.code t) →
      (∃ code, s.step t = (s.echo e r k).setCode t code) ∧ (s.step t).Late t w e r (k + 1) :=
    fun hecho hstep hthreads hworkers hne hway hclose =>
      ⟨⟨_, hecho ▸ hstep⟩, h.of_step hstep hthreads hworkers hne hway hclose⟩
  generalize hcode : s.code t = code at hway
  cases hway with
  | result a =>
    refine hgo (if_pos rfl).symm (step_handle hcode) (threads_remark ..) (workers_remark ..) (by simp [hcode]) ?_ ?_
    · unfold WorkResult.teardown
      split
      · rename_i hr
        exact .teardown a hr
      · rename_i hr
        exact .rest _ _ (Nat.one_pos) (fun h => absurd h hr) (Or.inl ⟨a, rfl⟩)
    · intro b hb
      unfold WorkResult.teardown at hb
      rw [hcode]
      split at hb <;> simpa using hb
  | teardown a hr =>
    refine hgo (by simp [echo, hr]) (step_callHost hcode) (threads_callHost ..) (workers_callHost ..) (by simp [hcode])
      (.rest _ _ (by omega) (fun _ => by omega) (Or.inl ⟨a, rfl⟩)) ?_
    intro b hb
    rw [hcode]
    simpa using hb
  | rest _ _ hk hr hrest =>
    have hecho : s = s.echo e r k := by
      have hz : ¬ k = 0 := Nat.ne_of_gt hk
      have ho : ¬ (k = 1 ∧ r.isFatal = true) := fun ⟨h1, h2⟩ => absurd (hr h2) (by omega)
      rw [echo, if_neg hz, if_neg ho]
    have hwayout : ∀ {code : List (Instr n)}, code = [.nextSlice w] ∨ code = [.retire w] ∨ code = [] →
        WayOut w e r (k + 1) code := fun hc => .rest _ _ (Nat.succ_pos k) (fun _ => by omega) (Or.inr hc)
    rcases hrest with ⟨a, rfl⟩ | rfl | rfl | rfl
    · have hstep := step_close_none hcode hworker (h.taken a (by simp [hcode]))
      exact hgo hecho hstep rfl rfl (by simp [hcode]) (hwayout (Or.inl rfl)) (by simp)
    · have hstep := step_next_retired hcode hworker hlive
      exact hgo hecho hstep rfl rfl (by simp [hcode]) (hwayout (Or.inr (Or.inl rfl))) (by simp)
    · have hstep := step_retire_retired hcode hworker hlive
      exact hgo hecho hstep rfl rfl (by simp [hcode]) (hwayout (Or.inr (Or.inr rfl))) (by simp)
    · have hs : s.step t = s := step_of_nil hcode
      refine ⟨⟨[], ?_⟩, ?_⟩
      · rw [← hecho, hs, ← hcode, setCode_self]
      · rw [hs]
        exact ⟨h.there, by rw [hcode]; exact hwayout (Or.inr (Or.inr rfl)), h.retired, h.taken⟩

/-- What others do leaves the thread where it is. -/
theorem act (h : s.Late t w e r k) (ho : s.books.Orderly) (hf : s.books.Fitted) {a : Action n} (ha : a ≠ .step t) :
    (s.act a).Late t w e r k := by
  have hg := s.act_goes a
  have ht : s.books.codes[t]? = some (s.code t) := by
    unfold Pool.code books
    rw [List.getElem?_map, List.getElem?_eq_getElem h.there]
    rfl
  have ht' := Books.codes_keep hg ht ha fun w' e' rest => h.way.not_work
  have hcode : (s.act a).code t = s.code t := by
    rw [code_eq, ht']
    rfl
  refine ⟨?_, by rw [hcode]; exact h.way, ?_, fun d hd => ?_⟩
  · simpa [books] using (List.getElem?_eq_some_iff.1 ht').1
  · have hlive : s.books.live[w]? = some false := by simpa [books] using h.retired
    simpa [books] using Books.retired_goes hg hlive
  · rw [hcode] at hd
    obtain ⟨hnext, hpublish⟩ := h.way.close hd
    have hnone : ∀ e', s.books.current[w]? ≠ some (some e') := fun e' hc => by
      rw [current_eq, h.taken d hd] at hc
      cases hc
    refine Option.eq_none_iff_forall_ne_some.2 fun e' hc => ?_
    exact Books.untaken_goes ho hf hg ht hnext hpublish hnone e' ((current_eq _ w e').2 hc)

/-- How far the thread is on its way after some more actions. -/
theorem run (h : s.Late t w e r k) (ho : s.books.Orderly) (hp : ∀ e, (s.books.account e).Placed) (hf : s.books.Fitted)
    (more : List (Action n)) : (s.run more).Late t w e r (k + more.countP (·.isStep t)) :=
  (run_counted (P := fun k s => s.books.Fitted ∧ s.Late t w e r k) (A := fun _ => True)
    (fun s _ _ _ _ h => ⟨h.1.goes (act_goes s (.step t)), h.2.step.2⟩)
    (fun s _ a ho _ _ ha h => ⟨h.1.goes (act_goes s a), h.2.act ho h.1 ha⟩)
    ho hp ⟨hf, h⟩ fun _ _ => trivial).2

end Late

/-- What a thread does after it returned from the work of a slice that was taken over: it deals with the result in its
next step, tells the host of a failure in the one after that, and does nothing else. -/
theorem run_returnsLate (config : SchedulerConfig) (context : Metrics.Context) (log : LogFilter) (hosts : Vector Host n)
    (before : List (Action n)) {t : ThreadId} {w : WorkerId} {e : Fin n}
    (hwork : ((create config context log hosts).run before).atWork t w e = true)
    (htaken : ((create config context log hosts).run before).current? w = none) (r : WorkResult) (more : List (Action n)) :
    let s := (create config context log hosts).run (before ++ .work t (.finish r) :: more)
    (∃ code, s.step t = (s.echo e r (more.countP (·.isStep t))).setCode t code) ∧ ∀ a, s.act (.work t a) = s := by
  have ho := run_orderly config context log hosts before
  have hp := run_placed config context log hosts before
  have hf := (run_manning config context log hosts before).fitted
  rw [run_append]
  generalize (create config context log hosts).run before = s at hwork htaken ho hp hf ⊢
  obtain ⟨rest, hwork⟩ := code_of_atWork hwork
  have ht := codes_of_code hwork
  obtain ⟨a, rfl⟩ : ∃ a, rest = [.closeSlice w e a, .nextSlice w] := (hf _ (List.mem_of_getElem? ht)).1
  have hworker : ∃ worker, s.workers[w]? = some worker ∧ worker.live = false := by
    have hinside : 0 < s.pending (works w e) := List.countP_pos_iff.2 ⟨_, Books.mem_todo ht, by simp⟩
    refine (current_or_retired ho hinside).resolve_left fun hc => ?_
    rw [htaken] at hc
    cases hc
  have hact : s.act (.work t (.finish r)) =
      (s.emit (.workEnded e w r)).setCode t [.handle e r, .closeSlice w e a, .nextSlice w] := by
    simp only [Pool.act, hwork]
    rfl
  have hm := act_moves s (.work t (.finish r))
  have hlate : (s.act (.work t (.finish r))).Late t w e r 0 := by
    have hthreads := (List.getElem?_eq_some_iff.1 ht).1
    rw [hact]
    refine ⟨by simpa [books, setCode, emit] using hthreads, ?_, hworker, fun _ _ => htaken⟩
    have hcons : (s.emit (.workEnded e w r)).code t = _ := hwork
    rw [code_setCode_self hcons]
    exact .result a
  have hrun := hlate.run (ho.moves hm) (fun e => (hp e).move (hm.account ho e)) (hf.goes (act_goes s _)) more
  rw [Nat.zero_add] at hrun
  refine ⟨hrun.step.1, fun x => ?_⟩
  unfold Pool.act
  simp only
  split
  · rename_i hcode
    exact absurd hcode hrun.way.not_work
  · rfl

/-- The work that went on returns with a failure, while a worker runs the executor again. -/
def brokenLate : Action 1 := .work 2 (.finish (.error (.failed "broken")))

theorem returnsLate_abandonedOnce :
    (lone.run abandonedOnce).atWork 2 0 0 = true ∧ (lone.run abandonedOnce).current? 0 = none ∧
      let s := lone.run (abandonedOnce ++ brokenLate :: steps 2 1)
      (∃ code, s.step 2 = (s.echo 0 (.error (.failed "broken")) ((steps 2 1).countP (·.isStep 2))).setCode 2 code) ∧
        ∀ a, s.act (.work 2 a) = s := by
  have hwork : (lone.run abandonedOnce).atWork 2 0 0 = true := by decide +kernel
  have htaken : (lone.run abandonedOnce).current? 0 = none := by decide +kernel
  exact ⟨hwork, htaken, run_returnsLate _ _ _ _ abandonedOnce hwork htaken (.error (.failed "broken")) (steps 2 1)⟩

/-- A slice that was taken over long ago has an effect after all: the executor keeps the error of its work, and the host is
told to tear the computer down, though another slice of it is under way. -/
theorem late_failure_echoes :
    ((lone.run abandonedOnce).current? 1 = some 0 ∧ (lone.run abandonedOnce).atWork 3 1 0 = true ∧
      ((lone.run abandonedOnce).executor 0).lastError = none ∧
      (lone.run abandonedOnce).history.toList.countP (· matches .called _ .abortWithError) = 0) ∧
    (lone.run (abandonedOnce ++ brokenLate :: steps 2 2)).current? 1 = some 0 ∧
      (lone.run (abandonedOnce ++ brokenLate :: steps 2 2)).atWork 3 1 0 = true ∧
      ((lone.run (abandonedOnce ++ brokenLate :: steps 2 2)).executor 0).lastError = some "broken" ∧
      (lone.run (abandonedOnce ++ brokenLate :: steps 2 2)).history.toList.countP
        (· matches .called _ .abortWithError) = 1 := by
  decide +kernel

end Pool

end FairShare.Scheduler

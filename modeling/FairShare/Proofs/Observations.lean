import FairShare.Proofs.History
import FairShare.Proofs.Registration
import FairShare.Proofs.Stopping

/-!
# Observations

Three instructions reach the observers: the work of an executor makes an observation, the scheduler makes one of a slice
that ended, and the metrics context is told that an executor is unloaded. Whatever else happens, no observation is made
and the metrics context stays as it is.
-/

namespace FairShare

namespace Metrics.Context

@[simp] theorem observe_standard (c : Context) (computer : ComputerId) (o : Observation) :
    (c.observe computer o).1.standard = c.standard := by
  unfold observe
  split <;> rfl

@[simp] theorem computerUnloaded_standard (c : Context) (computer : ComputerId) :
    (c.computerUnloaded computer).1.standard = c.standard := rfl

end Metrics.Context

namespace Scheduler

variable {n : Nat} {β : Type}

/-- The observation that an event passes on for an executor. -/
def Event.observation? (e : Fin n) : Event n → Option Metrics.Observation
  | .observed e' o => if e' = e then some o else none
  | _ => none

/-- The observation that an instruction makes for an executor. -/
def Instr.observation? (e : Fin n) : Instr n → Option Metrics.Observation
  | .observe e' o | .account e' o => if e' = e then some o else none
  | _ => none

namespace Pool

/-- A view that sees no events but those that pass an observation on, and of the rest of a pool only its metrics context. -/
structure Attentive (view : Pool n → β) : Prop where
  emit : ∀ (v : Event n) (s : Pool n), v.isObserved = false → view (s.emit v) = view s
  same : ∀ s s' : Pool n, s'.history = s.history → s'.context = s.context → view s' = view s

namespace Attentive

variable {view : Pool n → β} (hv : Attentive view)

include hv

theorem placid : Placid view where
  emit v s _ ho := hv.emit v s ho
  same s s' hh hs := by
    simp only [outward, Prod.mk.injEq] at hs
    exact hv.same s s' hh hs.2.2

theorem chargeAll (s : Pool n) (leaving : Option (Fin n)) : view (s.chargeAll leaving) = view s :=
  hv.placid.chargeAll (fun s _ _ _ _ => hv.emit _ s rfl) s leaving

theorem enqueue (s : Pool n) (e : Fin n) {s' : Pool n} (h : s.enqueue e = .ok s') : view s' = view s := by
  have hrun : view s.ensureRunning = view s := by
    obtain ⟨r, hwatch, hworker⟩ := s.ensureRunning_cases
    have hr : view r = view s := by
      rcases hwatch with ⟨-, rfl⟩ | ⟨-, rfl⟩
      · rfl
      · exact hv.same s _ rfl rfl
    rcases hworker with ⟨hrun, -⟩ | ⟨slot, -, hrun⟩
    · rw [hrun, hr]
    · rw [hrun, ← hr]
      exact hv.same r _ rfl rfl
  unfold Pool.enqueue at h
  split at h
  · cases h
  · split at h
    · cases h
      rfl
    · have hcharge := (hv.chargeAll s.ensureRunning none).trans hrun
      simp only at h
      generalize s.ensureRunning.chargeAll none = c at hcharge h
      have hpush : ∀ f : Executor → Executor, view ((c.modify e f).push e) = view c := by
        intro f
        refine Eq.trans ?_ (hv.emit (.queued e) c rfl)
        exact hv.same _ _ rfl rfl
      have hwake : ∀ r : Pool n, view r.wakeWorker = view r ∧ view r.wakeWorker.wakeOneWatchdog = view r := fun r =>
        ⟨hv.same r _ rfl rfl, hv.same r _ rfl rfl⟩
      cases h
      split
      · exact (hwake _).2.trans ((hpush _).trans hcharge)
      · exact (hwake _).1.trans ((hpush _).trans hcharge)

/-- An instruction that does not reach the observers is not seen. -/
theorem exec (s : Pool n) (t : ThreadId) {i : Instr n} (h : i.informs = false) : view (s.exec t i).1 = view s := by
  have hrest : (∀ e, i ≠ .enqueue e) → (∀ e, i ≠ .settle e) → (∀ w respawn, i ≠ .vacate w respawn) → i.rouses = false →
      view (s.exec t i).1 = view s := fun henter hsettle hvacate hrouse =>
    hv.placid.exec s t henter hsettle hvacate hrouse h
  cases i
  case enqueue e =>
    have hanswer : ∀ (r : Pool n) (x : Except SchedulerError Unit),
        view ((r.emit (.submitted e x)).setAnswer t (.result x)) = view r := by
      intro r x
      refine Eq.trans ?_ (hv.emit (.submitted e x) r rfl)
      exact hv.same _ _ rfl rfl
    simp only [Pool.exec]
    split
    · split
      · next s' hs' => exact (hanswer s' _).trans (hv.enqueue s e hs')
      · rfl
    · rfl
  case settle e =>
    have hexec : (s.exec t (.settle e)).1 = (s.settle e).1 := by
      simp only [Pool.exec]
      split <;> (rename_i h; rw [h])
    rw [hexec, hv.placid.settle, hv.chargeAll]
    exact hv.same s _ rfl rfl
  case vacate w respawn => exact hv.placid.vacate s w respawn fun _ _ => Or.inr fun s' => hv.emit _ s' rfl
  case beginWatch => exact hv.same s _ rfl rfl
  case watching deadline => exact hv.same s _ rfl rfl
  case wakeWatchdog => exact hv.same s _ rfl rfl
  all_goals exact hrest (by simp) (by simp) (by simp) rfl

theorem setCode (s : Pool n) (t : ThreadId) (code : List (Instr n)) : view (s.setCode t code) = view s :=
  hv.same s _ rfl rfl

end Attentive

/-- The instruction that an action has a thread carry out, unless it has to wait. -/
def head? (s : Pool n) : Action n → Option (Instr n)
  | .step t => (s.code t).head?
  | _ => none

theorem head?_step {s : Pool n} {t : ThreadId} {i : Instr n} {rest : List (Instr n)} (h : s.code t = i :: rest) :
    s.head? (.step t) = some i := by
  rw [head?, h]
  rfl

/-- An action that does not reach the observers is not seen. -/
theorem Attentive.act {view : Pool n → β} (hv : Attentive view) (s : Pool n) {a : Action n}
    (h : ∀ i, s.head? a = some i → i.informs = false) : view (s.act a) = view s := by
  cases a with
  | step t =>
    show view (s.step t) = view s
    unfold step
    split
    · rfl
    · next i rest hcode =>
      split
      · rfl
      · exact (hv.setCode ..).trans ((hv.exec _ t (h i (head?_step hcode))).trans (hv.setCode ..))
  | call c => exact hv.same s _ rfl rfl
  | work t a =>
    simp only [Pool.act]
    split
    · next w e rest hcode =>
      refine (hv.setCode ..).trans ?_
      cases a with
      | allocate bytes => exact hv.same s _ rfl rfl
      | finish result => exact hv.emit _ s rfl
      | _ => rfl
    · rfl
  | advance nanos => exact hv.same s _ rfl rfl
  | release => exact hv.same s _ rfl rfl

theorem attentive_context : Attentive (n := n) (·.context) where
  emit _ _ _ := rfl
  same _ _ _ hc := hc

/-! ## What is observed -/

/-- What was observed for an executor so far. -/
def observations (s : Pool n) (e : Fin n) : List Metrics.Observation := s.told (Event.observation? e)

theorem attentive_observations (e : Fin n) : Attentive (n := n) (·.observations e) where
  emit v s ho := told_emit (by cases v <;> first | rfl | cases ho) s
  same s s' hh _ := by rw [observations, observations, told, told, hh]

/-- What the observers make of an observation. -/
def heard (s : Pool n) (e : Fin n) (o : Metrics.Observation) : Metrics.Context :=
  match (s.executor e).host.sink with
  | .context => (s.context.observe (s.executor e).host.computer o).1
  | _ => s.context

@[simp] theorem context_foldl_metrics (s : Pool n) (notes : List Metrics.Note) :
    (notes.foldl (fun s note => s.emit (.metrics note)) s).context = s.context := by
  induction notes generalizing s with
  | nil => rfl
  | cons note notes ih => rw [List.foldl_cons, ih]; rfl

@[simp] theorem context_observe (s : Pool n) (e : Fin n) (o : Metrics.Observation) :
    (s.observe e o).context = s.heard e o := by
  unfold observe heard
  simp only
  cases (s.executor e).host.sink with
  | context => exact context_foldl_metrics _ _
  | _ => rfl

@[simp] theorem context_announce (s : Pool n) (e : Fin n) :
    (s.announce e).context = (s.context.computerUnloaded (s.executor e).host.computer).1 := by
  unfold announce
  simp only [context_foldl_metrics]
  rfl

theorem observations_foldl_metrics (s : Pool n) (notes : List Metrics.Note) (e : Fin n) :
    (notes.foldl (fun s note => s.emit (.metrics note)) s).observations e = s.observations e := by
  induction notes generalizing s with
  | nil => rfl
  | cons note notes ih => rw [List.foldl_cons, ih, (attentive_observations e).emit _ _ rfl]

theorem observations_observe (s : Pool n) (e e' : Fin n) (o : Metrics.Observation) :
    (s.observe e' o).observations e = s.observations e ++ ((Instr.observe e' o).observation? e).toList := by
  have hemit : (s.emit (.observed e' o)).observations e =
      s.observations e ++ ((Instr.observe e' o).observation? e).toList := by
    rw [observations, told, toList_emit, List.filterMap_append]
    by_cases h : e' = e <;> simp [Event.observation?, Instr.observation?, observations, told, h]
  unfold observe
  simp only
  split
  · rw [observations_foldl_metrics]
    exact hemit
  · exact hemit

theorem observations_announce (s : Pool n) (e e' : Fin n) : (s.announce e').observations e = s.observations e := by
  unfold announce
  simp only [observations_foldl_metrics]
  exact (attentive_observations e).emit _ _ rfl

/-- An instruction that reaches the observers does not wait. -/
theorem Attentive.step {view : Pool n → β} (hv : Attentive view) {s : Pool n} {t : ThreadId} {i : Instr n}
    {rest : List (Instr n)} (h : s.code t = i :: rest) (hi : i.informs = true) :
    view (s.step t) = view ((s.setCode t rest).exec t i).1 := by
  have hwait : s.mustWait t i = false := by cases i <;> first | rfl | cases hi
  unfold Pool.step
  simp only [h, hwait]
  exact hv.setCode ..

/-- Either an action does not reach the observers, or a thread carries out an instruction that does. -/
theorem quiet_or_informs (s : Pool n) (a : Action n) : (∀ i, s.head? a = some i → i.informs = false) ∨
    ∃ t i rest, a = .step t ∧ s.code t = i :: rest ∧ i.informs = true := by
  by_cases h : ∃ i, s.head? a = some i ∧ i.informs = true
  · right
    obtain ⟨i, hi, hinform⟩ := h
    cases a with
    | step t =>
      obtain ⟨rest, hcode⟩ := List.head?_eq_some_iff.1 hi
      exact ⟨t, i, rest, rfl, hcode, hinform⟩
    | _ => cases hi
  · exact Or.inl fun i hi => Bool.eq_false_iff.2 fun hinform => h ⟨i, hi, hinform⟩

/-- An action makes the observation of the instruction that is carried out, if that makes one. -/
theorem act_observations (s : Pool n) (a : Action n) (e : Fin n) :
    (s.act a).observations e = s.observations e ++ ((s.head? a).bind (Instr.observation? e)).toList := by
  rcases s.quiet_or_informs a with hquiet | ⟨t, i, rest, rfl, hcode, hinform⟩
  · have hnone : (s.head? a).bind (Instr.observation? e) = none := by
      refine Option.bind_eq_none_iff.2 fun i hi => ?_
      have := hquiet i hi
      cases i <;> first | rfl | cases this
    rw [(attentive_observations e).act s hquiet, hnone]
    exact (List.append_nil _).symm
  · refine ((attentive_observations e).step hcode hinform).trans ?_
    rw [head?_step hcode, Option.bind_some, ← (attentive_observations e).setCode s t rest]
    cases i with
    | observe e' o => exact observations_observe _ e e' o
    | account e' o => exact observations_observe _ e e' o
    | announce e' => exact (observations_announce _ e e').trans (List.append_nil _).symm
    | _ => cases hinform

/-- What an instruction makes of the metrics context. -/
def informed (s : Pool n) : Instr n → Metrics.Context
  | .observe e o | .account e o => s.heard e o
  | .announce e => (s.context.computerUnloaded (s.executor e).host.computer).1
  | _ => s.context

/-- The metrics context only hears of observations and of executors that are unloaded. -/
theorem act_context (s : Pool n) (a : Action n) :
    (s.act a).context = ((s.head? a).map s.informed).getD s.context := by
  rcases s.quiet_or_informs a with hquiet | ⟨t, i, rest, rfl, hcode, hinform⟩
  · rw [attentive_context.act s hquiet]
    cases hi : s.head? a with
    | none => rfl
    | some i =>
      have := hquiet i hi
      cases i <;> first | rfl | cases this
  · refine (attentive_context.step hcode hinform).trans ?_
    rw [head?_step hcode]
    cases i with
    | observe e o => exact context_observe ..
    | account e o => exact context_observe ..
    | announce e => exact context_announce ..
    | _ => cases hinform

theorem act_standard (s : Pool n) (a : Action n) : (s.act a).context.standard = s.context.standard := by
  have hheard : ∀ e o, (s.heard e o).standard = s.context.standard := by
    intro e o
    unfold heard
    split
    · exact Metrics.Context.observe_standard ..
    · rfl
  rw [act_context]
  cases s.head? a with
  | none => rfl
  | some i =>
    cases i with
    | observe e o => exact hheard e o
    | account e o => exact hheard e o
    | _ => rfl

end Pool

end Scheduler

end FairShare

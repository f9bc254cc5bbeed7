import FairShare.Proofs.RunQueue

/-!
# Unloads

Every executor that is unloaded is told of it exactly once, and the metrics context after it. Two operations can
finish an unload, the unload itself and the end of the last stay on a worker. Which of them does is decided by the
stage at which the executor is unloaded; an executor that is on a worker then is not told before its stay ends.
-/

namespace FairShare.Scheduler

variable {n : Nat}

/-! ## What comes before -/

/-- What comes before each `m` has a property. -/
def Preceded (P : List Mark → Prop) (m : Mark) (marks : List Mark) : Prop :=
  ∀ before after, marks = before ++ m :: after → P before

@[simp] theorem preceded_nil (P : List Mark → Prop) (m : Mark) : Preceded P m [] := by
  intro before after h
  simp at h

@[simp, grind =] theorem preceded_append (P : List Mark → Prop) (m m' : Mark) (marks : List Mark) :
    Preceded P m (marks ++ [m']) ↔ Preceded P m marks ∧ (m' = m → P marks) := by
  constructor
  · intro h
    refine ⟨fun before after hm => h before (after ++ [m']) (by simp [hm]), ?_⟩
    rintro rfl
    exact h marks [] rfl
  · rintro ⟨h, hlast⟩ before after hm
    rcases List.eq_nil_or_concat after with rfl | ⟨after, last, rfl⟩
    · obtain ⟨rfl, hmm⟩ := List.append_inj' hm rfl
      exact hlast (List.cons.inj hmm).1
    · rw [List.concat_eq_append, ← List.cons_append, ← List.append_assoc] at hm
      exact h before after (List.append_inj' hm rfl).1

@[simp, grind =] theorem preceded_append_two (P : List Mark → Prop) (m m₁ m₂ : Mark) (marks : List Mark) :
    Preceded P m (marks ++ [m₁, m₂]) ↔
      (Preceded P m marks ∧ (m₁ = m → P marks)) ∧ (m₂ = m → P (marks ++ [m₁])) := by
  rw [← preceded_append, ← preceded_append, List.append_assoc]
  rfl

namespace Account

/-- The unload of an executor agrees with its stage and its places. -/
structure Unloading (a : Account) : Prop where
  /-- One operation finishes the unload, when it is unloaded and not among the running. -/
  finished : a.finishing + (if a.unloaded then 1 else 0) = if a.stage = .done ∧ a.running = 0 then 1 else 0
  /-- The host is told by the operation that finishes the unload. -/
  told : a.calling + a.marks.count .unloaded = if a.unloaded then 1 else 0
  /-- So is the metrics context. -/
  announced : a.announcing + a.marks.count .announced = if a.unloaded then 1 else 0
  /-- Every stay on a worker has ended but that of one that is running. -/
  stays : a.marks.count .taken = a.marks.count .settled + a.running
  /-- The host is told when every stay has ended. -/
  ended : Preceded (fun before => before.count .taken = before.count .settled) .unloaded a.marks
  /-- The metrics context is told after the host. -/
  after : Preceded (.unloaded ∈ ·) .announced a.marks

theorem Unloading.start : Account.start.Unloading := by
  constructor <;> simp [Account.start]

theorem Unloading.move {a a' : Account} (hp : a.Placed) (h : a.Unloading) (hm : a.Move a') :
    a'.Unloading := by
  obtain ⟨single, idle, queued, busy, done, leaving, staying⟩ := hp
  obtain ⟨finished, told, announced, stays, ended, after⟩ := h
  cases hm with
  | drift phase staying' hp hs => exact ⟨finished, told, announced, stays, ended, after⟩
  | unload => cases hst : a.stage <;> constructor <;> grind
  | resubmit _ hi =>
    cases hst : a.stage with
    | idle => exact absurd hst hi
    | _ => constructor <;> grind [Stage.submitted]
  | settle a hr =>
    -- The stay that ends is that of a running executor, so nobody else finishes an unload of it.
    cases hst : a.stage <;> constructor <;> grind [Stage.sliceEnded]
  | _ => constructor <;> grind

end Account

/-! ## The history of unloads -/

namespace Pool

open Instr

/-- What comes before an event in the history, seen from an executor. -/
theorem preceded_history {s : Pool n} {e : Fin n} {P : List Mark → Prop} {m : Mark} {v : Event n}
    (h : Preceded P m (s.books.account e).marks) (hv : m.Of e v) {before after : List (Event n)}
    (hh : s.history.toList = before ++ v :: after) : P (before.filterMap (Event.mark? e)) := by
  refine h _ (after.filterMap (Event.mark? e)) ?_
  show s.history.toList.filterMap (Event.mark? e) = _
  rw [hh, Event.marks_split hv]

/-- Every executor that is unloaded is told of it exactly once, and so is the metrics context. -/
structure UnloadedOnce (s : Pool n) : Prop where
  /-- The host is told once at most. -/
  once : ∀ e, s.times e .unloaded ≤ 1
  /-- The host was told, or one operation that is under way is going to tell it, of whoever is unloaded and not
  among the running. -/
  told : ∀ e, (s.executor e).stage = .done → e ∉ s.running →
    s.pending (finishes e) + s.pending (tells e) + s.times e .unloaded = 1
  /-- Nobody is told who is not unloaded, or whose stay on a worker has not ended. -/
  waits : ∀ e, (s.executor e).stage ≠ .done ∨ e ∈ s.running →
    s.pending (finishes e) + s.pending (tells e) + s.times e .unloaded = 0
  /-- The stay on a worker of whoever runs has not ended. -/
  stay : ∀ e, (s.executor e).stage.isRunning = true → s.times e .taken = s.times e .settled + 1
  /-- When the host is told, every stay on a worker that was begun has ended. -/
  ended : ∀ e before after, s.history.toList = before ++ .called e .unload :: after →
    before.countP (fun v => v.mark? e = some .taken) = before.countP fun v => v.mark? e = some .settled
  /-- The metrics context was told as often as the host, but for calls that are under way. -/
  announced : ∀ e, s.pending (announces e) + s.times e .announced = s.pending (tells e) + s.times e .unloaded
  /-- The metrics context is told after the host. -/
  after : ∀ e before after, s.history.toList = before ++ .announced e :: after →
    .called e .unload ∈ before

theorem run_unloading (config : SchedulerConfig) (context : Metrics.Context) (log : LogFilter)
    (hosts : Vector Host n) (actions : List (Action n)) (e : Fin n) :
    (((create config context log hosts).run actions).books.account e).Unloading :=
  run_account .start (fun _ _ hp h hm => h.move hp hm) config context log hosts actions e

/-- Every executor that is unloaded is told of it exactly once in any run. -/
theorem run_unloadedOnce (config : SchedulerConfig) (context : Metrics.Context) (log : LogFilter)
    (hosts : Vector Host n) (actions : List (Action n)) :
    ((create config context log hosts).run actions).UnloadedOnce := by
  have hu := run_unloading config context log hosts actions
  have hp := run_placed config context log hosts actions
  generalize (create config context log hosts).run actions = s at hu hp
  have hsum : ∀ e, s.pending (finishes e) + s.pending (tells e) + s.times e .unloaded =
      if (s.executor e).stage = .done ∧ e ∉ s.running then 1 else 0 := by
    intro e
    have hf : s.pending (finishes e) + _ = ite _ 1 0 := (hu e).finished
    have ht : s.pending (tells e) + _ = ite _ 1 0 := (hu e).told
    have hr : (s.executor e).stage = .done ∧ e ∉ s.running ↔
        (s.books.account e).stage = .done ∧ (s.books.account e).running = 0 :=
      and_congr_right fun _ => List.count_eq_zero.symm
    rw [Nat.add_assoc, times_eq, ht, hf]
    simp only [hr]
  constructor
  case once =>
    intro e
    have := hsum e
    split at this <;> omega
  case told =>
    intro e hd hr
    rw [hsum, if_pos ⟨hd, hr⟩]
  case waits =>
    intro e h
    rw [hsum, if_neg fun ⟨hd, hr⟩ => h.elim (absurd hd) hr]
  case stay =>
    intro e hr
    rw [times_eq, times_eq, (hu e).stays, (hp e).busy ((Stage.isRunning_iff _).1 hr)]
  case ended =>
    intro e before after hh
    have := preceded_history (hu e).ended rfl hh
    rwa [Event.count_marks, Event.count_marks] at this
  case announced =>
    intro e
    rw [times_eq, times_eq]
    exact (hu e).announced.trans (hu e).told.symm
  case after =>
    intro e before after hh
    obtain ⟨v, hv, hm⟩ := List.mem_filterMap.1
      (preceded_history (hu e).after rfl hh)
    rwa [Event.mark?_eq_some.1 hm] at hv

/-- The metrics context is told of an unload at which the host fails. -/
example : ((sole { computer := ⟨0⟩, failure := fun _ => some "" }).run
    (.call (.unload only) :: steps 0 4)).times 0 .announced = 1 := by
  decide +kernel

end Pool

end FairShare.Scheduler

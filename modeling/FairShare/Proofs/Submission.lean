import FairShare.Proofs.RunQueue

/-!
# Submits

No submit is lost and none is duplicated. An executor is owed a slice from the answer to a submit until a
worker takes it, or until a submit of it is refused; and while no submit is under way, those that are owed a
slice are the ones that are queued, or that run and will be queued again.
-/

namespace FairShare.Scheduler

variable {n : Nat}

/-! ## What is owed -/

/-- Whether an executor is owed a slice after something happened to it. -/
@[simp, grind] def Mark.owes (owed : Bool) : Mark → Bool
  | .accepted => true
  | .taken | .refused => false
  | _ => owed

/-- Whether an executor is owed a slice after all that happened to it. -/
def owed (marks : List Mark) : Bool := marks.foldl Mark.owes false

@[simp, grind =] theorem owed_append (marks : List Mark) (m : Mark) : owed (marks ++ [m]) = m.owes (owed marks) := by
  simp [owed]

@[simp, grind =] theorem owed_append_two (marks : List Mark) (m m' : Mark) :
    owed (marks ++ [m, m']) = m'.owes (m.owes (owed marks)) := by
  simp [owed]

namespace Account

/-- The submits of an executor agree with its stage and its places. -/
structure Submitted (a : Account) : Prop where
  /-- It was queued once for every time that it was taken, and once more if it is in the run queue. -/
  pushed : a.stage ≠ .done → a.marks.count .pushed = a.marks.count .taken + a.queued
  /-- There was a submit for every time that it was taken, is queued or will be queued again. -/
  taken : a.marks.count .taken + a.queued + (if a.stage = .repeating then 1 else 0) ≤
    a.marks.count .accepted
  /-- It is owed nothing while it is idle, or runs and was not submitted again. -/
  paid : a.stage = .idle ∨ a.stage = .running → owed a.marks = false
  /-- It is owed a slice while it is queued or was submitted again, unless the submit is under way. -/
  owed : a.stage = .queued ∨ a.stage = .repeating → a.entering = 0 → owed a.marks = true

theorem Submitted.start : Account.start.Submitted := by
  constructor <;> simp [Account.start, FairShare.Scheduler.owed]

theorem Submitted.move {a a' : Account} (hp : a.Placed) (h : a.Submitted) (hm : a.Move a') :
    a'.Submitted := by
  obtain ⟨single, idle, queued, busy, done, leaving, staying⟩ := hp
  obtain ⟨pushed, taken, paid, owed⟩ := h
  cases hm with
  | drift phase staying' hp hs => exact ⟨pushed, taken, paid, owed⟩
  | resubmit _ hi =>
    cases hst : a.stage with
    | idle => exact absurd hst hi
    | _ => constructor <;> grind [Stage.submitted]
  | skip _ queued hs hq =>
    -- Only one that is unloaded is in the run queue without being queued.
    cases hst : a.stage <;> constructor <;> grind
  | settle a hr =>
    -- The stay that ends is that of a running executor, which was submitted again if it is repeating.
    cases hst : a.stage <;> constructor <;> grind [Stage.sliceEnded]
  | _ => constructor <;> grind

end Account

/-! ## The history of submits -/

namespace Pool

open Instr

end Pool

end FairShare.Scheduler

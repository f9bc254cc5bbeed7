import FairShare.Proofs.Order

/-!
# The account of an executor

What the books say of one executor: its stage and its fate, how often it is in the run queue and among the
running, and how many of the instructions that concern it the threads still have to carry out. Whatever
happens to the scheduler, the account of an executor makes one of the few moves of this module. Places are
kept by every move: an executor is in one place at most, and its stage says in which.
-/

namespace FairShare.Scheduler

variable {n : Nat}

theorem Stage.isRunning_iff (stage : Stage) :
    stage.isRunning = true ↔ stage = .running ∨ stage = .repeating := by
  cases stage <;> simp [isRunning]

/-- What the books say of one executor. -/
@[ext] structure Account where
  /-- The phase of the scheduler. -/
  phase : Phase
  /-- Where the executor stands. -/
  stage : Stage
  /-- Whether the host was told that it is unloaded, or is about to be. -/
  unloaded : Bool
  /-- Its fate. -/
  marks : List Mark
  /-- How often it is in the run queue. -/
  queued : Nat
  /-- How often it is among the running. -/
  running : Nat
  /-- How many submits have still to put it into the run queue. -/
  entering : Nat
  /-- How many unloads have still to take it out of the run queue. -/
  leaving : Nat
  /-- How many unloads of it have still to be finished. -/
  finishing : Nat
  /-- How many calls have still to tell the host that it is unloaded. -/
  calling : Nat
  /-- How many calls have still to tell the metrics context that it is unloaded. -/
  announcing : Nat
  /-- How many stays of it on a worker have still to end. -/
  staying : Nat

namespace Account

/-- The account of an executor that was never submitted. -/
def start : Account where
  phase := .running
  stage := .idle
  unloaded := false
  marks := []
  queued := 0
  running := 0
  entering := 0
  leaving := 0
  finishing := 0
  calling := 0
  announcing := 0
  staying := 0

/-- The moves of an account. -/
inductive Move : Account → Account → Prop where
  /-- A stay is forgotten, or the scheduler comes nearer to its end. -/
  | drift (a : Account) (phase : Phase) (staying : Nat) (hp : a.phase = .closed → phase = .closed)
    (hs : staying ≤ a.staying) : Move a { a with phase, staying }
  /-- It is submitted while it is idle. -/
  | submit (a : Account) (h : a.stage = .idle) :
    Move a { a with stage := .queued, entering := a.entering + 1 }
  /-- It is submitted while it is not. -/
  | resubmit (a : Account) (h : a.stage ≠ .idle) :
    Move a { a with stage := a.stage.submitted, marks := a.marks ++ [.accepted] }
  /-- A submit puts it into the run queue. -/
  | push (a : Account) (h : a.stage ≠ .done) : Move { a with entering := a.entering + 1 }
    { a with queued := a.queued + 1, marks := a.marks ++ [.pushed, .accepted] }
  /-- A submit has nothing left to do since it was unloaded. -/
  | pass (a : Account) (h : a.stage = .done) : Move { a with entering := a.entering + 1 }
    { a with marks := a.marks ++ [.accepted] }
  /-- A submit is refused. -/
  | refuse (a : Account) : Move { a with entering := a.entering + 1 }
    { a with
      stage := if a.stage = .queued then .idle else a.stage
      marks := a.marks ++ [.refused] }
  /-- It is unloaded. -/
  | unload (a : Account) : Move a
    { a with
      stage := .done
      leaving := a.leaving + if a.stage = .queued then 1 else 0
      finishing := a.finishing + if a.stage = .queued ∨ a.stage = .idle then 1 else 0 }
  /-- An unload takes it out of the run queue. -/
  | leave (a : Account) : Move { a with leaving := a.leaving + 1 } { a with queued := 0 }
  /-- An unload is finished. -/
  | finish (a : Account) (h : a.unloaded = false) : Move { a with finishing := a.finishing + 1 }
    { a with unloaded := true, calling := a.calling + 1, announcing := a.announcing + 1 }
  /-- An unload was finished before. -/
  | refinish (a : Account) (h : a.unloaded = true) : Move { a with finishing := a.finishing + 1 } a
  /-- The host is told. -/
  | call (a : Account) : Move { a with calling := a.calling + 1 } { a with marks := a.marks ++ [.unloaded] }
  /-- The metrics context is told. -/
  | announce (a : Account) (h : .unloaded ∈ a.marks) :
    Move { a with announcing := a.announcing + 1 } { a with marks := a.marks ++ [.announced] }
  /-- It is dropped from the run queue. -/
  | skip (a : Account) (queued : Nat) (h : a.stage ≠ .queued) (hq : queued ≤ a.queued) :
    Move a { a with queued }
  /-- A worker takes it from the run queue. -/
  | take (a : Account) (h : a.stage = .queued) : Move { a with queued := a.queued + 1 }
    { a with
      stage := .running
      running := a.running + 1
      staying := a.staying + 1
      marks := a.marks ++ [.taken] }
  /-- A stay on a worker ends. -/
  | settle (a : Account) (h : ¬(a.stage = .repeating ∧ a.phase ≠ .closed)) :
    Move { a with staying := a.staying + 1 }
      { a with
        stage := a.stage.sliceEnded
        running := 0
        finishing := a.finishing + if a.stage = .done then 1 else 0
        marks := a.marks ++ [.settled] }
  /-- A stay on a worker ends, and it is put into the run queue again. -/
  | requeue (a : Account) (h : a.stage = .repeating) (hp : a.phase ≠ .closed) :
    Move { a with staying := a.staying + 1 }
      { a with
        stage := .queued
        running := 0
        queued := a.queued + 1
        marks := a.marks ++ [.settled, .pushed] }

/-- The move that is none. -/
theorem Move.rest (a : Account) : a.Move a := .drift a a.phase a.staying id (Nat.le_refl _)

/-- The places of an executor agree with its stage. -/
structure Placed (a : Account) : Prop where
  /-- It is in one place at most. -/
  single : a.entering + a.queued + a.running ≤ 1
  /-- One that is idle is in none. -/
  idle : a.stage = .idle → a.entering + a.queued + a.running = 0
  /-- One that is queued is in the run queue or about to be, unless everything has ended. -/
  queued : a.stage = .queued → a.running = 0 ∧ (a.entering + a.queued = 1 ∨ a.phase = .closed)
  /-- One that runs is among the running. -/
  busy : a.stage = .running ∨ a.stage = .repeating → a.running = 1
  /-- One that is unloaded is about to leave the run queue if it is in it. -/
  done : a.stage = .done → a.queued ≤ a.leaving
  /-- Only one that is unloaded leaves the run queue. -/
  leaving : 0 < a.leaving → a.stage = .done
  /-- Every stay is that of a running one. -/
  staying : a.staying ≤ a.running

theorem Placed.start : Account.start.Placed := by
  constructor <;> simp [Account.start]

theorem Placed.move {a a' : Account} (h : a.Placed) (hm : a.Move a') : a'.Placed := by
  obtain ⟨single, idle, queued, busy, done, leaving, staying⟩ := h
  cases hm with
  | resubmit _ hi =>
    cases hs : a.stage with
    | idle => exact absurd hs hi
    | _ => constructor <;> grind [Stage.submitted]
  | unload => cases hs : a.stage <;> constructor <;> grind
  | settle a hr =>
    -- A stay that ends was one of a running executor, so it is idle afterwards or unloaded.
    cases hs : a.stage <;> constructor <;> grind [Stage.sliceEnded]
  | _ => constructor <;> grind

end Account

end FairShare.Scheduler

import FairShare.Timeout.Run

/-!
# A timeout with several callers

The operations of a timeout as threads carry them out side by side, part by part. The clock is behind a lock, and flags
are stored to only by the thread that holds it; who polls the flags takes no lock and sees them after every single
store. The share and the moment of a refresh are read before the lock is taken, and `start` and `arm` let go of the lock
before the refresh that they end with.
-/

namespace FairShare

/-- An operation that a thread calls. -/
inductive TimeoutCall where
  /-- A slice begins. -/
  | start
  /-- The clock is compared with the share and the budget. -/
  | refresh
  /-- A budget is armed. -/
  | arm (budget : Duration)
  /-- The hard abort is raised. -/
  | hardAbort
  /-- The slice ends. -/
  | reset

/-- The call as one event. -/
def TimeoutCall.event : TimeoutCall → TimeoutEvent
  | start => .start
  | refresh => .refresh
  | arm budget => .arm budget
  | hardAbort => .hardAbort
  | reset => .reset

/-- What a thread does next with the timeout. -/
inductive TimeoutTask where
  /-- Nothing. -/
  | idle
  /-- The first part of an operation. -/
  | begin (call : TimeoutCall)
  /-- Starting the clock, as of the moment that was read. -/
  | startAt (moment : Instant)
  /-- Reading the moment of a refresh; the share is read. -/
  | refreshWith (share : Share)
  /-- A refresh with what was read. -/
  | refreshAt (share : Share) (moment : Instant)
  /-- Going on with a part under the lock, which it holds. -/
  | inside

/-- A part of an operation that is done under the lock. -/
structure LockedPart where
  /-- The clock that it leaves. -/
  clock : SliceClock
  /-- Its stores to the flags. -/
  stores : List Flags.Store

namespace TimeoutTask

/-- The part that has to be done under the lock, if it is not one that only reads. -/
def locked (t : TimeoutState) (now : Instant) : TimeoutTask → Option LockedPart
  | startAt moment => some ⟨{ t.clock with start := some moment, armedAt := moment }, []⟩
  | refreshAt share moment => some ⟨t.clock, t.refreshStores share moment⟩
  | begin (.arm budget) => some ⟨{ t.clock with budget := budget, armedAt := now }, t.armStores⟩
  | begin .hardAbort => some ⟨t.clock, TimeoutState.hardAbortStores⟩
  | begin .reset => some ⟨{ t.clock with start := none, budget := t.config.timeout }, TimeoutState.resetStores⟩
  | _ => none

/-- What follows a part that only reads. -/
def read (share : Share) (now : Instant) : TimeoutTask → TimeoutTask
  | begin .start => startAt now
  | begin .refresh => refreshWith share
  | refreshWith share => refreshAt share now
  | task => task

/-- What follows a part that is done under the lock. -/
def next : TimeoutTask → TimeoutTask
  | startAt _ | begin (.arm _) => begin .refresh
  | _ => idle

end TimeoutTask

/-- The thread that holds the lock. -/
structure LockHolder where
  /-- The thread. -/
  caller : Nat
  /-- The part for which it took the lock. -/
  task : TimeoutTask
  /-- The stores that it still has to make. -/
  pending : List Flags.Store

/-- A timeout with the threads that use it. -/
@[ext] structure SharedTimeout where
  /-- The timeout. -/
  timeout : TimeoutState
  /-- The share at the moment. -/
  share : Share
  /-- The present. -/
  now : Instant
  /-- What each thread does next. -/
  tasks : Nat → TimeoutTask
  /-- Who holds the lock. -/
  holder : Option LockHolder

/-- What can happen next. -/
inductive TimeoutAction where
  /-- A thread that is idle calls an operation. -/
  | call (caller : Nat) (call : TimeoutCall)
  /-- A thread goes on by one read or one store, or takes the lock, or lets go of it. -/
  | step (caller : Nat)
  /-- Time passes. -/
  | advance (nanos : Nat)
  /-- The share changes. -/
  | share (share : Share)

namespace SharedTimeout

/-- A new timeout, which no thread uses. -/
def create (config : TimeoutConfig) (share : Share) : SharedTimeout :=
  ⟨.create config 0, share, 0, fun _ => .idle, none⟩

/-- Sets what a thread does next. -/
def assign (s : SharedTimeout) (caller : Nat) (task : TimeoutTask) : SharedTimeout :=
  { s with tasks := fun i => if i = caller then task else s.tasks i }

/-- A thread takes the lock for a part, and writes the clock. -/
def enter (s : SharedTimeout) (caller : Nat) (part : LockedPart) : SharedTimeout :=
  { s.assign caller .inside with
    timeout := { s.timeout with clock := part.clock }
    holder := some ⟨caller, s.tasks caller, part.stores⟩ }

/-- The holder of the lock makes its next store, or lets go once there is none. -/
def proceed (s : SharedTimeout) (holder : LockHolder) : SharedTimeout :=
  match holder.pending with
  | store :: rest => { s with timeout := s.timeout.store [store], holder := some { holder with pending := rest } }
  | [] => { s.assign holder.caller holder.task.next with holder := none }

/-- A thread reads what it needs, if that is what it does next. -/
def read (s : SharedTimeout) (caller : Nat) : SharedTimeout :=
  s.assign caller ((s.tasks caller).read s.share s.now)

/-- A thread goes on, if it does not have to wait for the lock. -/
def step (s : SharedTimeout) (caller : Nat) : SharedTimeout :=
  match s.holder with
  | some holder => if holder.caller = caller then s.proceed holder else s.read caller
  | none =>
    match (s.tasks caller).locked s.timeout s.now with
    | some part => s.enter caller part
    | none => s.read caller

/-- What an action leaves. -/
def act (s : SharedTimeout) : TimeoutAction → SharedTimeout
  | .call caller call =>
    match s.tasks caller with
    | .idle => s.assign caller (.begin call)
    | _ => s
  | .step caller => s.step caller
  | .advance nanos => { s with now := s.now + nanos }
  | .share share => { s with share := share }

/-- What a sequence of actions leaves. -/
def run (s : SharedTimeout) (actions : List TimeoutAction) : SharedTimeout := actions.foldl act s

/-- A reset has the lock. -/
def Resetting (s : SharedTimeout) : Prop :=
  ∃ holder, s.holder = some holder ∧ holder.task = .begin .reset

end SharedTimeout

end FairShare

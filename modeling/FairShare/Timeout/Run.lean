import FairShare.Timeout.State

/-!
# Runs of a timeout

What can happen to a timeout, one event after the other, when it is driven from outside: its operations, the
passing of time, and changes of the share that it compares the clock with.
-/

namespace FairShare

/-- Something that happens to a timeout or around it. -/
inductive TimeoutEvent where
  /-- A slice begins. -/
  | start
  /-- The clock is compared with the share and the budget. -/
  | refresh
  /-- A budget is armed. -/
  | arm (budget : Duration)
  /-- The hard abort is raised. -/
  | hardAbort
  /-- The slice ends. -/
  | reset
  /-- Time passes. -/
  | advance (nanos : Nat)
  /-- The share changes. -/
  | share (share : Share)

/-- A timeout with its surroundings. -/
@[ext] structure TimeoutRun where
  /-- The timeout. -/
  timeout : TimeoutState
  /-- The share at the moment. -/
  share : Share
  /-- The present. -/
  now : Instant

namespace TimeoutRun

/-- A new timeout. -/
def create (config : TimeoutConfig) (share : Share) : TimeoutRun := ⟨.create config 0, share, 0⟩

/-- What an event leaves. -/
def after (r : TimeoutRun) : TimeoutEvent → TimeoutRun
  | .start => { r with timeout := r.timeout.startTimer r.share r.now }
  | .refresh => { r with timeout := r.timeout.refresh r.share r.now }
  | .arm budget => { r with timeout := r.timeout.arm budget r.share r.now }
  | .hardAbort => { r with timeout := r.timeout.hardAbort }
  | .reset => { r with timeout := r.timeout.reset }
  | .advance nanos => { r with now := r.now + nanos }
  | .share share => { r with share := share }

/-- What a sequence of events leaves. -/
def run (r : TimeoutRun) (events : List TimeoutEvent) : TimeoutRun := events.foldl after r

end TimeoutRun

end FairShare

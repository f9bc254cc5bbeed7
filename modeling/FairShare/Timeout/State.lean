import FairShare.Timeout.Config

/-!
# Timeouts

A computer runs in slices, and a timeout watches the current one. It holds three flags, which the computer
polls: it was *paused*, as others wait and it had its share; it was *soft aborted*, as its budget is used
up; it was *hard aborted*, as it is being terminated. Raising the flags is the only thing that a passing
moment does: `refresh` compares the clock with the current share and the budget.

An operation on the flags is a list of single stores in the order in which they become visible to a
computer that polls (`refreshStores`, `armStores`, `hardAbortStores`, `resetStores`).

Instants are nanoseconds on one clock.
-/

namespace FairShare

/-- An instant, in nanoseconds since the clock began. -/
abbrev Instant := Nat

/-- What a computer may use at the moment. -/
structure Share where
  /-- How long it may run before it lets others in. -/
  period : Duration
  /-- Whether others wait. -/
  contended : Bool
  deriving DecidableEq

/-- Why a computer has to unwind. -/
inductive Abort where
  /-- Its budget is used up. -/
  | soft
  /-- It is being terminated. -/
  | hard
  deriving DecidableEq, Inhabited

/-- The explanation that a computer gets. -/
def Abort.message : Abort → String
  | soft => "Too long without yielding"
  | hard => "computer was forcibly terminated"

/-- The flags that a computer polls. -/
@[ext] structure Flags where
  /-- It should let others in. -/
  paused : Bool := false
  /-- It should unwind. -/
  softAborted : Bool := false
  /-- It is being terminated. -/
  hardAborted : Bool := false
  deriving DecidableEq

/-- One change to one flag. -/
inductive Flags.Store where
  /-- Sets the paused flag. -/
  | paused (b : Bool)
  /-- Sets the soft-abort flag. -/
  | softAborted (b : Bool)
  /-- Sets the hard-abort flag. -/
  | hardAborted (b : Bool)
  deriving DecidableEq

/-- The flags after one store. -/
def Flags.apply (f : Flags) : Flags.Store → Flags
  | .paused b => { f with paused := b }
  | .softAborted b => { f with softAborted := b }
  | .hardAborted b => { f with hardAborted := b }

/-- What a computer learns when it polls the flags; a hard abort comes before a soft one. -/
def Flags.check (f : Flags) : Except Abort Unit :=
  if f.hardAborted then .error .hard
  else if f.softAborted then .error .soft
  else .ok ()

/-- The clock of a slice. -/
@[ext] structure SliceClock where
  /-- The start of the current slice, if there is one. -/
  start : Option Instant
  /-- The budget as of `armedAt`. -/
  budget : Duration
  /-- When the budget was armed. -/
  armedAt : Instant

/-- The nanoseconds of budget that are left, negative once it is overrun. Outside a slice the budget is
untouched. -/
def SliceClock.remaining (c : SliceClock) (now : Instant) : Int :=
  match c.start with
  | some _ => (c.budget.nanos : Int) - ((now - c.armedAt : Nat) : Int)
  | none => c.budget.nanos

/-- The timeout of one computer. -/
@[ext] structure TimeoutState where
  /-- Its settings. -/
  config : TimeoutConfig
  /-- Its flags. -/
  flags : Flags
  /-- Its clock. -/
  clock : SliceClock

namespace TimeoutState

/-- A timeout outside any slice, armed with the configured budget. -/
def create (config : TimeoutConfig) (now : Instant) : TimeoutState :=
  ⟨config, {}, ⟨none, config.timeout, now⟩⟩

/-- The timeout after some stores to its flags. -/
def store (t : TimeoutState) (stores : List Flags.Store) : TimeoutState :=
  { t with flags := stores.foldl Flags.apply t.flags }

/-- The stores of a refresh: within a slice, the paused flag goes up once others wait and the slice has
run for its share, and the soft-abort flag once no budget is left. Nothing goes down. -/
def refreshStores (t : TimeoutState) (share : Share) (now : Instant) : List Flags.Store :=
  match t.clock.start with
  | none => []
  | some start =>
    (if !t.flags.paused && share.contended && share.period.nanos ≤ now - start then [.paused true]
      else []) ++
    (if !t.flags.softAborted && t.clock.remaining now ≤ 0 then [.softAborted true] else [])

/-- Compares the clock with the current share and the budget. -/
def refresh (t : TimeoutState) (share : Share) (now : Instant) : TimeoutState :=
  t.store (t.refreshStores share now)

/-- Starts the clock of a slice, which counts the budget from now. -/
def startClock (t : TimeoutState) (now : Instant) : TimeoutState :=
  { t with clock := { t.clock with start := some now, armedAt := now } }

/-- Begins a slice. -/
def startTimer (t : TimeoutState) (share : Share) (now : Instant) : TimeoutState :=
  (t.startClock now).refresh share now

/-- The stores of arming: paused and soft abort go down, the latter unless a hard abort holds it up. -/
def armStores (t : TimeoutState) : List Flags.Store :=
  .paused false :: if t.flags.hardAborted then [] else [.softAborted false]

/-- Sets the budget, which counts from now. -/
def armClock (t : TimeoutState) (budget : Duration) (now : Instant) : TimeoutState :=
  { t with clock := { t.clock with budget := budget, armedAt := now } }.store t.armStores

/-- Arms a new budget. -/
def arm (t : TimeoutState) (budget : Duration) (share : Share) (now : Instant) : TimeoutState :=
  (t.armClock budget now).refresh share now

/-- The stores of a hard abort: the soft abort that it implies comes first. -/
def hardAbortStores : List Flags.Store := [.softAborted true, .hardAborted true]

/-- Raises the hard abort. -/
def hardAbort (t : TimeoutState) : TimeoutState := t.store hardAbortStores

/-- The stores of a reset: the hard abort goes down before the soft abort that it implies. -/
def resetStores : List Flags.Store := [.paused false, .hardAborted false, .softAborted false]

/-- Ends a slice: every flag goes down and the configured budget is restored. -/
def reset (t : TimeoutState) : TimeoutState :=
  { t with clock := { t.clock with start := none, budget := t.config.timeout } }.store resetStores

/-- The time since the current slice began, zero outside a slice. -/
def executionTime (t : TimeoutState) (now : Instant) : Nat :=
  match t.clock.start with
  | some start => now - start
  | none => 0

/-- The budget that is left before the soft abort, zero once it is used up. -/
def remainingTime (t : TimeoutState) (now : Instant) : Duration :=
  .ofClamped (t.clock.remaining now).toNat

/-- How far the slice ran past its budget. -/
def overrun (t : TimeoutState) (now : Instant) : Duration :=
  .ofClamped (-t.clock.remaining now).toNat

/-- The text of a timeout. -/
def text (t : TimeoutState) : String :=
  Text.record "TimeoutState"
    [("paused", Text.ofBool t.flags.paused), ("soft_aborted", Text.ofBool t.flags.softAborted),
      ("hard_aborted", Text.ofBool t.flags.hardAborted)] true

end TimeoutState

end FairShare

import FairShare.Log
import FairShare.Metrics.Observer
import FairShare.Metrics.Standard

/-!
# The metrics context

A context has the registry and the observers, some of which are registered. What is observed, and which
computers are gone, is told to every registered observer once, in the order of registration; one that
fails is noted and keeps none of the others from hearing it.

Observers are known by their numbers. Every operation answers with the notes of what it did.
-/

namespace FairShare.Metrics

/-- Something that a context did and that can be seen from outside. -/
inductive Note where
  /-- It told an observer something. -/
  | told (observer : Nat) (computer : ComputerId) (call : Call)
  /-- An observer failed over a computer. -/
  | failed (computer : ComputerId)
  /-- It was shut down. -/
  | shutDown
  deriving DecidableEq

/-- The log record of a note, if it has one. -/
def Note.log? : Note → Option LogRecord
  | told _ _ _ => none
  | failed computer =>
    some ⟨.error, s!"metrics observer panicked while handling computer {computer.text}"⟩
  | shutDown => some ⟨.debug, "metrics context shut down"⟩

/-- A registry with its observers. -/
@[ext] structure Context where
  /-- The metrics. -/
  registry : Registry
  /-- The standard metrics among them. -/
  standard : Standard
  /-- Whether observations are passed on. -/
  enabled : Bool := false
  /-- All observers, registered or not. -/
  observers : List Observer := []
  /-- The numbers of the registered observers in the order of registration. -/
  registered : List Nat := []

namespace Context

/-- A context without observers, for a registry that has the standard metrics. -/
def ofRegistry (r : Registry) : Except MetricsError Context :=
  (Standard.lookup r).map fun standard => { registry := r, standard }

/-- The context of the standard metrics alone. -/
def init : Except MetricsError Context := ofRegistry .standard

/-- How many observers are registered. -/
def observerCount (c : Context) : Nat := c.registered.length

/-- Registers an observer; whether it was not registered before. -/
def addObserver (c : Context) (i : Nat) : Context × Bool :=
  if c.registered.contains i then (c, false)
  else ({ c with registered := c.registered ++ [i], enabled := true }, true)

/-- Takes an observer off; whether it was registered. -/
def removeObserver (c : Context) (i : Nat) : Context × Bool :=
  let left := c.registered.filter (· != i)
  ({ c with registered := left, enabled := !left.isEmpty }, left.length != c.registered.length)

/-- Tells one observer something. -/
def tell (computer : ComputerId) (call : Call) (observers : List Observer) (i : Nat) :
    List Observer × List Note :=
  match observers[i]? with
  | none => (observers, [])
  | some o =>
    (observers.set i (o.hear computer call),
      (if o.hears call then [.told i computer call] else []) ++
        if o.failsOn call then [.failed computer] else [])

/-- Tells some observers something, one after the other. -/
def tellAll (computer : ComputerId) (call : Call) (observers : List Observer) :
    List Nat → List Observer × List Note
  | [] => (observers, [])
  | i :: rest =>
    let (observers', notes) := tell computer call observers i
    let (observers'', notes') := tellAll computer call observers' rest
    (observers'', notes ++ notes')

/-- Tells every registered observer something. -/
def broadcast (c : Context) (computer : ComputerId) (call : Call) : Context × List Note :=
  let (observers, notes) := tellAll computer call c.observers c.registered
  ({ c with observers }, notes)

/-- Passes an observation on, if anybody listens. -/
def observe (c : Context) (computer : ComputerId) (o : Observation) : Context × List Note :=
  if c.enabled then c.broadcast computer (.observed o) else (c, [])

/-- Passes on that a computer is gone for good. -/
def computerUnloaded (c : Context) (computer : ComputerId) : Context × List Note :=
  c.broadcast computer .unloaded

/-- Takes every observer off. -/
def shutdown (c : Context) : Context × List Note :=
  ({ c with registered := [], enabled := false }, [.shutDown])

/-- Sets whether an observer is tracking; whether it was. -/
def setTracking (c : Context) (i : Nat) (tracking : Bool) : Context × Bool :=
  match c.observers[i]? with
  | none => (c, false)
  | some o => ({ c with observers := c.observers.set i (o.setTracking tracking) }, o.tracking)

/-- Starts an observer, which registers it unless it was started before; whether it was not. Records are
cleared either way. -/
def start (c : Context) (i : Nat) : Context × Bool :=
  match c.setTracking i true with
  | (c', true) => (c', false)
  | (c', false) => ((c'.addObserver i).1, true)

/-- Stops an observer, which takes it off if it was started; whether it was. Records are cleared either
way. -/
def stop (c : Context) (i : Nat) : Context × Bool :=
  match c.setTracking i false with
  | (c', false) => (c', false)
  | (c', true) => ((c'.removeObserver i).1, true)

/-- The text of a context. -/
def text (c : Context) : String :=
  Text.record "MetricsContext"
    [("metrics", toString c.registry.size), ("enabled", Text.ofBool c.enabled)] true

/-- The text of the adapter through which a computer makes its observations. -/
def adapterText (computer : ComputerId) : String :=
  Text.record "ComputerObserver" [("computer", computer.debugText)] false

end Context

end FairShare.Metrics

import FairShare.Simulation.Basic

/-!
# The report of a simulation

What the host sees of all that happened: the log records that the log keeps, the calls into the host, the
observations of its own observers, and the remarks of the scripts. Where several workers run at once, only
the order among the happenings of one computer means anything, and the report goes computer by computer.
-/

namespace FairShare.Simulation

open Scheduler

namespace Sim

variable {n : Nat}

/-- The first computer with an id. -/
def indexOf? (s : Sim n) (id : ComputerId) : Option (Fin n) :=
  (List.finRange n).find? fun e => (s.computers.get e).host.computer == id

/-- The computer that something happened to. -/
def owner? (s : Sim n) : Happening n → Option (Fin n)
  | .remark r => some r.computer
  | .event (.reported notice) => notice.computer?.bind s.indexOf?
  | .event (.called e _) | .event (.observed e _) => some e
  | .event (.metrics (.failed id)) => s.indexOf? id
  | .event _ => none

/-- Puts happenings in the order of their computers, those of none first. -/
def byComputer (s : Sim n) (hs : List (Happening n)) : List (Happening n) :=
  hs.mergeSort fun a b => match s.owner? a, s.owner? b with
    | none, _ => true
    | some _, none => false
    | some x, some y => x ≤ y

/-- Whether the host sees something that happened. -/
def isVisible (s : Sim n) : Happening n → Bool
  | .remark _ => true
  | .event (.reported notice) => s.pool.log.keeps notice.record.level
  | .event (.called e callback) => callback != .writeState || !(s.computers.get e).quiet
  | .event (.observed e _) => match (s.computers.get e).host.sink with
    | .host _ => true
    | _ => false
  | .event (.metrics note) => note.log?.any fun record => s.pool.log.keeps record.level
  | .event _ => false

/-- Takes out what the host sees of what happened. With several workers it is in the order of the
computers. -/
def takeHappenings (s : Sim n) : Sim n × List (Happening n) :=
  let s := s.collect
  let visible := s.happenings.toList.filter s.isVisible
  ({ s with happenings := #[] }, if 1 < s.pool.slots.length then s.byComputer visible else visible)

end Sim

end FairShare.Simulation

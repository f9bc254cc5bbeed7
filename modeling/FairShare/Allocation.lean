import FairShare.Word

/-!
# Allocation accounting

Each thread counts the bytes that it was given in a 64-bit word that only grows, but comes round past
zero. A block that is enlarged counts by what it gained; shrinking and freeing count nothing, and so does
a request that is turned down. Whether a request is granted is decided outside: every operation takes the
decision as an argument.
-/

namespace FairShare.Allocation

/-- What a thread was given. -/
structure Ledger where
  /-- The bytes counted so far. -/
  current : UInt64 := 0
  /-- The size of each block ever asked for, in order; `none` where it was not given or is freed. -/
  blocks : List (Option UInt64) := []

namespace Ledger

/-- The size of a block, if it is held. -/
def block? (l : Ledger) (i : Nat) : Option UInt64 := (l.blocks[i]?).join

/-- Asks for a block. -/
def allocate (l : Ledger) (size : UInt64) (granted : Bool) : Ledger :=
  if granted then ⟨wrapAdd l.current size, l.blocks ++ [some size]⟩
  else { l with blocks := l.blocks ++ [none] }

/-- What a block of one size gains by another. -/
def gain (old new : UInt64) : UInt64 := if old < new then new - old else 0

/-- Asks for another size of a block. A block whose request is turned down stays as it was. -/
def reallocate (l : Ledger) (i : Nat) (size : UInt64) (granted : Bool) : Ledger :=
  match l.block? i with
  | none => l
  | some old =>
    if granted then ⟨wrapAdd l.current (gain old size), l.blocks.set i (some size)⟩ else l

/-- Gives a block back. -/
def free (l : Ledger) (i : Nat) : Ledger := { l with blocks := l.blocks.set i none }

end Ledger

/-- A call of the allocator; a request comes with the decision about it. -/
inductive Call where
  /-- A block is asked for. -/
  | allocate (size : UInt64) (granted : Bool)
  /-- A block of zeros is asked for. -/
  | allocateZeroed (size : UInt64) (granted : Bool)
  /-- Another size of a block is asked for. -/
  | reallocate (block : Nat) (size : UInt64) (granted : Bool)
  /-- A block is given back. -/
  | free (block : Nat)
  deriving DecidableEq

namespace Ledger

/-- What a call leaves. -/
def after (l : Ledger) : Call → Ledger
  | .allocate size granted | .allocateZeroed size granted => l.allocate size granted
  | .reallocate i size granted => l.reallocate i size granted
  | .free i => l.free i

/-- What a sequence of calls leaves. -/
def run (l : Ledger) (calls : List Call) : Ledger := calls.foldl after l

end Ledger

/-- The size at which the machine turns requests down. -/
def sizeLimit : Nat := 0x1000000000000000

/-- Whether the machine grants a request of this size. -/
def granted (size : UInt64) : Bool := size.toNat < sizeLimit

end FairShare.Allocation

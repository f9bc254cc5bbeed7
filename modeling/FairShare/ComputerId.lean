import FairShare.Text.Record

/-!
# Computer ids

The host names each computer by a 32-bit number. An id is written `#` and the number; it is read from
at most one `#`, at most one `+`, and decimal digits. Text is read from the left, so of several faults
the first one is reported.
-/

namespace FairShare

/-- The name of a computer. -/
@[ext] structure ComputerId where
  /-- Its number. -/
  number : UInt32
  deriving DecidableEq, Inhabited

/-- Why a text names no computer. -/
inductive ComputerId.ParseError where
  /-- There is nothing after the `#`. -/
  | empty
  /-- A character is no digit, or there is no digit. -/
  | invalidDigit
  /-- The number is too large. -/
  | overflow
  deriving DecidableEq

namespace ComputerId

/-- The explanation of a parse error. -/
def ParseError.message : ParseError → String
  | empty => "cannot parse integer from empty string"
  | invalidDigit => "invalid digit found in string"
  | overflow => "number too large to fit in target type"

/-- The id as a text. -/
def text (id : ComputerId) : String := s!"#{id.number.toNat}"

/-- The id as a text that names its type. -/
def debugText (id : ComputerId) : String := Text.variant "ComputerId" (toString id.number.toNat)

/-- The value of an ASCII digit. -/
def digit? (c : Char) : Option Nat :=
  if c.isDigit then some (c.toNat - '0'.toNat) else none

/-- Reads the digits left over after those that make up `value`. -/
def parseDigits (value : Nat) : List Char → Except ParseError Nat
  | [] => .ok value
  | c :: rest => match digit? c with
    | none => .error .invalidDigit
    | some d =>
      if 10 * value + d < 0x100000000 then parseDigits (10 * value + d) rest else .error .overflow

/-- Reads a number of 32 bits, which may follow a plus sign. -/
def parseNumber : List Char → Except ParseError Nat
  | [] => .error .empty
  | ['+'] => .error .invalidDigit
  | '+' :: digits => parseDigits 0 digits
  | digits => parseDigits 0 digits

/-- Drops one leading `#`. -/
def stripHash : List Char → List Char
  | '#' :: rest => rest
  | cs => cs

/-- Reads an id. -/
def parse (s : String) : Except ParseError ComputerId :=
  (parseNumber (stripHash s.toList)).map fun n => ⟨.ofNat n⟩

end ComputerId

end FairShare

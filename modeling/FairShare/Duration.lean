import FairShare.Word

/-!
# Durations

A duration is a whole number of nanoseconds below 2⁶⁴ seconds. Its text names the largest of the units
second, millisecond, microsecond and nanosecond that it reaches, with as many decimals as it needs.
-/

namespace FairShare

/-- Nanoseconds in a second. -/
def secondNanos : Nat := 1000000000

/-- The number of nanoseconds at which durations end. -/
def Duration.limit : Nat := (maxWord + 1) * secondNanos

/-- A length of time. -/
@[ext] structure Duration where
  /-- Its nanoseconds. -/
  nanos : Nat
  /-- It is below the limit. -/
  nanos_lt : nanos < Duration.limit
  deriving DecidableEq

namespace Duration

/-- The empty duration. -/
def zero : Duration := ⟨0, by decide⟩

instance : Inhabited Duration := ⟨zero⟩

/-- The duration of `n` nanoseconds, if there is one. -/
def ofNanos? (n : Nat) : Option Duration :=
  if h : n < limit then some ⟨n, h⟩ else none

/-- The duration of at most a word of nanoseconds that is nearest to `n` nanoseconds. -/
def ofClamped (n : Nat) : Duration :=
  ⟨clampWord n, Nat.lt_of_le_of_lt (clampWord_le n) (by decide)⟩

/-- The duration of `n` milliseconds. -/
def ofMillis (n : UInt32) : Duration :=
  ⟨n.toNat * 1000000, by have := n.toNat_lt; simp only [limit, maxWord, secondNanos]; omega⟩

/-- The whole seconds of a duration. -/
def seconds (d : Duration) : UInt64 := .ofNat (d.nanos / secondNanos)

/-- The nanoseconds of a duration past its last whole second. -/
def subsecNanos (d : Duration) : UInt32 := .ofNat (d.nanos % secondNanos)

theorem toNat_seconds (d : Duration) : d.seconds.toNat = d.nanos / secondNanos := by
  have := d.nanos_lt
  simp only [limit, maxWord, secondNanos] at this
  simp only [seconds, secondNanos, UInt64.toNat_ofNat']; omega

theorem toNat_subsecNanos (d : Duration) : d.subsecNanos.toNat = d.nanos % secondNanos := by
  simp only [subsecNanos, secondNanos, UInt32.toNat_ofNat']; omega

/-- The duration of whole seconds and further nanoseconds, of which a second's worth or more carries
over; `none` if it is too long. -/
def ofParts? (seconds : UInt64) (nanos : UInt32) : Option Duration :=
  ofNanos? (seconds.toNat * secondNanos + nanos.toNat)

theorem ofParts?_parts (d : Duration) : ofParts? d.seconds d.subsecNanos = some d := by
  have h : d.nanos / secondNanos * secondNanos + d.nanos % secondNanos = d.nanos :=
    Nat.div_add_mod' d.nanos secondNanos
  simp only [ofParts?, toNat_seconds, toNat_subsecNanos, ofNanos?, h, d.nanos_lt, dite_true]

/-- The sum of two durations, if it is not too long. -/
def add? (a b : Duration) : Option Duration := ofNanos? (a.nanos + b.nanos)

/-- A part of a duration. -/
def div (d : Duration) (k : Nat) : Duration :=
  ⟨d.nanos / k, Nat.lt_of_le_of_lt (Nat.div_le_self _ _) d.nanos_lt⟩

/-- The longer of two durations. -/
def max (a b : Duration) : Duration := if a.nanos ≤ b.nanos then b else a

/-- Whether a duration is empty. -/
def isZero (d : Duration) : Bool := d.nanos == 0

/-- The last `places` digits of a number, as they stand after a decimal point, without those zeros at the end that say
nothing; empty for zero. -/
def fraction (places n : Nat) : String :=
  let digits := toString n
  let padded := List.replicate (places - digits.length) '0' ++ digits.toList
  String.ofList (padded.reverse.dropWhile (· == '0')).reverse

/-- `n / unit` with as many decimals as it needs, for a `unit` of `places` zeros. -/
def decimal (places n : Nat) : String :=
  let unit := Nat.pow 10 places
  let rest := n % unit
  if rest == 0 then toString (n / unit) else s!"{n / unit}.{fraction places rest}"

/-- The text of a duration, such as `50ms`, `1.5s`, `1µs` or `0ns`. -/
def text (d : Duration) : String :=
  if secondNanos ≤ d.nanos then decimal 9 d.nanos ++ "s"
  else if 1000000 ≤ d.nanos then decimal 6 d.nanos ++ "ms"
  else if 1000 ≤ d.nanos then decimal 3 d.nanos ++ "µs"
  else toString d.nanos ++ "ns"

end Duration

end FairShare

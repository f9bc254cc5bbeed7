/-!
# Binary floating point

The value of a computation in binary floating point with 53 significant bits, as a rational number:
`nearest q` is the number of that format nearest to `q`, and a computation rounds after each step. The
quantities of this library lie far inside the range of exponents, so no limits on them are drawn.
`fixed` writes a rational number with a fixed number of decimals. Both round a tie to the even neighbour.
-/

namespace FairShare.Numeric

/-- The integer nearest to `q`; of two, the even one. -/
def roundEven (q : Rat) : Int :=
  let below := q.floor
  let rest := q - below
  if rest < 1 / 2 then below
  else if 1 / 2 < rest then below + 1
  else if below % 2 == 0 then below else below + 1

/-- A power of two. -/
def twoPow (e : Int) : Rat := 2 ^ e

/-- The exponent of the largest power of two that is at most `q`, for a positive `q`. The bit lengths of
numerator and denominator give it up to one. -/
def binade (q : Rat) : Int :=
  let e : Int := (Nat.log2 q.num.toNat : Int) - (Nat.log2 q.den : Int)
  if twoPow e ≤ q then e else e - 1

/-- The number with 53 significant bits that is nearest to `q`; zero for a `q` that is not positive. -/
def nearest (q : Rat) : Rat :=
  if q ≤ 0 then 0
  else
    let unit := twoPow (binade q - 52)
    roundEven (q / unit) * unit

/-- The floating-point quotient of two whole numbers, the first of which is rounded beforehand. -/
def quotient (n d : Nat) : Rat := nearest (nearest n / d)

/-- A rational number that is not negative, with `places` decimals, for at least one place. -/
def fixed (places : Nat) (q : Rat) : String :=
  let scaled := (roundEven (q * Nat.pow 10 places)).toNat
  let unit := Nat.pow 10 places
  let digits := toString (scaled % unit)
  s!"{scaled / unit}." ++ String.ofList (List.replicate (places - digits.length) '0') ++ digits

end FairShare.Numeric

import FairShare.Json.Reader
import FairShare.Proofs.Rounding
import FairShare.Proofs.Sorting

/-!
# What rendered values show

A rendered value is read back as the number it begins with and the unit behind it, which say how much it shows. A number of
bytes is shown in the largest unit that it reaches, which the exact number decides, while its decimals come of a rounded
quotient: so the number is below 1024 unless the value is so close to the next unit that it is rounded up to 1024.0 of its
own. That is as much as 1.0 of the next, and no rounding changes the order of values, so what is shown keeps the order of
what was measured.
-/

namespace FairShare.Metrics

open Json (spanDigits digitsValue)
open Numeric

/-! ## Reading a rendered value -/

/-- What a rendered value shows. -/
structure Shown where
  /-- The number at its front. -/
  number : Rat
  /-- The text behind the number. -/
  unit : String
  deriving DecidableEq

/-- Reads what follows a whole number: decimals and a unit, or a unit alone. -/
def shownBehind? (whole : List Char) : List Char → Option Shown
  | '.' :: rest =>
    let (decimals, unit) := spanDigits rest
    if decimals.isEmpty then none
    else some ⟨digitsValue (whole ++ decimals) / 10 ^ decimals.length, String.ofList unit⟩
  | unit => some ⟨digitsValue whole, String.ofList unit⟩

/-- Reads a rendered value. -/
def shown? (text : String) : Option Shown :=
  let (whole, rest) := spanDigits text.toList
  if whole.isEmpty then none else shownBehind? whole rest

/-- How much of what was measured one of a unit is. -/
def scale? : String → Option Nat
  | "" | " B" => some 1
  | " KiB" => some kibibyte
  | " MiB" => some mebibyte
  | " GiB" => some gibibyte
  | "ms" => some 1000000
  | _ => none

/-- How much a rendered value shows. -/
def quantity? (text : String) : Option Rat := do
  let shown ← shown? text
  return shown.number * (← scale? shown.unit)

/-- The text does not go on with a digit or a decimal point. -/
def EndsNumber (text : String) : Prop := ∀ c ∈ text.toList.head?, c.isDigit = false ∧ c ≠ '.'

instance (text : String) : Decidable (EndsNumber text) :=
  decidable_of_iff (text.toList.head?.all fun c => !c.isDigit && c != '.') (by
    cases htext : text.toList.head? <;> simp [EndsNumber, htext])

variable {unit : String}

theorem spanDigits_append {digits rest : List Char} (hdigits : ∀ c ∈ digits, c.isDigit = true)
    (hrest : ∀ c ∈ rest.head?, c.isDigit = false) : spanDigits (digits ++ rest) = (digits, rest) := by
  rw [spanDigits, List.takeWhile_append_of_pos hdigits, List.dropWhile_append_of_pos hdigits]
  cases rest with
  | nil => rw [List.takeWhile_nil, List.dropWhile_nil, List.append_nil]
  | cons c rest =>
    have hc := hrest c rfl
    rw [List.takeWhile_cons_of_neg (by simp [hc]), List.dropWhile_cons_of_neg (by simp [hc]), List.append_nil]

theorem digitsValue_eq (digits : List Char) : digitsValue digits = Nat.ofDigitChars 10 digits 0 :=
  Nat.ofDigitChars_eq_foldl.symm

theorem isDigit_of_mem_toDigits {n : Nat} : ∀ c ∈ Nat.toDigits 10 n, c.isDigit = true :=
  fun _ hc => Nat.isDigit_of_mem_toDigits (by decide) (by decide) hc

theorem toDigits_isEmpty (n : Nat) : (Nat.toDigits 10 n).isEmpty = false :=
  List.isEmpty_eq_false_iff.2 Nat.toDigits_ne_nil

theorem shown?_toString (n : Nat) (hunit : EndsNumber unit) : shown? (toString n ++ unit) = some ⟨n, unit⟩ := by
  have hspan : spanDigits (toString n ++ unit).toList = (Nat.toDigits 10 n, unit.toList) := by
    rw [String.toList_append, Nat.toString_eq_ofList_toDigits, String.toList_ofList]
    exact spanDigits_append isDigit_of_mem_toDigits fun c hc => (hunit c hc).1
  have hvalue : digitsValue (Nat.toDigits 10 n) = n := by
    rw [digitsValue_eq, Nat.ofDigitChars_ten_toDigits]
  simp only [shown?, hspan, toDigits_isEmpty, Bool.false_eq_true, if_false]
  unfold shownBehind?
  split
  case h_1 rest hpoint => exact absurd rfl (hunit '.' (by rw [hpoint]; rfl)).2
  case h_2 => rw [hvalue, String.ofList_toList]

/-- The decimal digits of a number with zeros before them. -/
def padded (places n : Nat) : List Char :=
  List.replicate (places - (Nat.toDigits 10 n).length) '0' ++ Nat.toDigits 10 n

theorem isDigit_of_mem_padded {places n : Nat} : ∀ c ∈ padded places n, c.isDigit = true := by
  intro c hc
  rcases List.mem_append.1 hc with hzero | hdigit
  · rw [List.eq_of_mem_replicate hzero]
    rfl
  · exact isDigit_of_mem_toDigits c hdigit

theorem length_padded {places n : Nat} (hplaces : 0 < places) (hn : n < 10 ^ places) :
    (padded places n).length = places := by
  have hlength := (Nat.length_toDigits_le_iff (by decide) hplaces).2 hn
  rw [padded, List.length_append, List.length_replicate]
  omega

theorem digitsValue_append_padded {places n : Nat} (hplaces : 0 < places) (hn : n < 10 ^ places) (m : Nat) :
    digitsValue (Nat.toDigits 10 m ++ padded places n) = 10 ^ places * m + n := by
  have hrest : Nat.ofDigitChars 10 (padded places n) 0 = n := by
    rw [padded, Nat.ofDigitChars_append, Nat.ofDigitChars_replicate_zero, Nat.mul_zero, Nat.ofDigitChars_ten_toDigits]
  rw [digitsValue_eq, Nat.ofDigitChars_append, Nat.ofDigitChars_ten_toDigits, Nat.ofDigitChars_eq_ofDigitChars_zero,
    length_padded hplaces hn, hrest]

theorem toList_fixed {places : Nat} {q : Rat} {scaled : Nat} (hscaled : roundEven (q * 10 ^ places) = scaled) :
    (fixed places q).toList = Nat.toDigits 10 (scaled / 10 ^ places) ++ '.' :: padded places (scaled % 10 ^ places) := by
  have hpow : Nat.pow 10 places = 10 ^ places := rfl
  have htext : fixed places q = toString (scaled / 10 ^ places) ++ "." ++
      String.ofList (List.replicate (places - (toString (scaled % 10 ^ places)).length) '0') ++
        toString (scaled % 10 ^ places) := by
    simp only [fixed, hpow, Nat.cast_pow, Nat.cast_ofNat, hscaled, Int.toNat_natCast]
    rfl
  rw [htext]
  simp only [padded, String.toList_append, String.toList_ofList, String.length_ofList, Nat.toString_eq_ofList_toDigits,
    List.append_assoc]
  rfl

/-- A number with decimals reads as what it was rounded to. -/
theorem shown?_fixed {places : Nat} (hplaces : 0 < places) {q : Rat} (hq : 0 ≤ q) (hunit : EndsNumber unit) :
    shown? (fixed places q ++ unit) = some ⟨roundEven (q * 10 ^ places) / 10 ^ places, unit⟩ := by
  obtain ⟨scaled, hscaled⟩ := Int.eq_ofNat_of_zero_le (roundEven_nonneg (show 0 ≤ q * 10 ^ places by positivity))
  have hmod : scaled % 10 ^ places < 10 ^ places := Nat.mod_lt _ (by positivity)
  have hspan : spanDigits (fixed places q ++ unit).toList =
      (Nat.toDigits 10 (scaled / 10 ^ places), '.' :: padded places (scaled % 10 ^ places) ++ unit.toList) := by
    rw [String.toList_append, toList_fixed hscaled, List.append_assoc]
    refine spanDigits_append isDigit_of_mem_toDigits ?_
    rintro c ⟨⟩
    rfl
  have hrest : spanDigits (padded places (scaled % 10 ^ places) ++ unit.toList) =
      (padded places (scaled % 10 ^ places), unit.toList) :=
    spanDigits_append isDigit_of_mem_padded fun c hc => (hunit c hc).1
  have hlength := length_padded hplaces hmod
  have hempty : (padded places (scaled % 10 ^ places)).isEmpty = false := by
    rw [List.isEmpty_eq_false_iff, ← List.length_pos_iff]
    omega
  simp only [shown?, hspan, toDigits_isEmpty, Bool.false_eq_true, if_false, List.cons_append, shownBehind?, hrest, hempty,
    digitsValue_append_padded hplaces hmod, Nat.div_add_mod, hlength, String.ofList_toList, hscaled]
  rfl

/-! ## Tenths -/

/-- The number that a quotient is shown as. -/
def tenthsShown (n d : Nat) : Rat := roundEven (quotient n d * 10) / 10

theorem shown?_tenths (n d : Nat) (hunit : EndsNumber unit) :
    shown? (tenths n d ++ unit) = some ⟨tenthsShown n d, unit⟩ := by
  rw [tenths, shown?_fixed Nat.one_pos (quotient_nonneg n d) hunit, pow_one, tenthsShown]

theorem tenthsShown_mono {m n : Nat} (h : m ≤ n) (d : Nat) : tenthsShown m d ≤ tenthsShown n d := by
  have hround : roundEven (quotient m d * 10) ≤ roundEven (quotient n d * 10) :=
    roundEven_mono (mul_le_mul_of_nonneg_right (quotient_mono h d) (by norm_num))
  have hcast : (roundEven (quotient m d * 10) : Rat) ≤ roundEven (quotient n d * 10) := by exact_mod_cast hround
  exact div_le_div_of_nonneg_right hcast (by norm_num)

/-- Whole quotients are shown as they are. -/
theorem tenthsShown_mul {m k : Nat} (h : m * 2 ^ k < 2 ^ 53) : tenthsShown (m * 2 ^ k) (2 ^ k) = m := by
  have hquotient : quotient (m * 2 ^ k) (2 ^ k) = m := by
    rw [quotient_two_pow h]
    push_cast
    exact mul_div_cancel_right₀ _ (by positivity)
  have hround : roundEven ((m : Rat) * 10) = m * 10 := by exact_mod_cast roundEven_intCast (m * 10)
  rw [tenthsShown, hquotient, hround]
  push_cast
  exact mul_div_cancel_right₀ _ (by norm_num)

/-- What is shown is half a tenth off, and what the floating-point quotient is off. -/
theorem abs_tenthsShown_sub_le (n : Nat) {d : Nat} (hd : 0 < d) :
    |tenthsShown n d * d - n| ≤ (d : Rat) / 20 + n / 2 ^ 51 := by
  have hpos : (0 : Rat) < d := by exact_mod_cast hd
  have hquotient := abs_le.1 (abs_quotient_sub_le n hd)
  have hround := abs_le.1 (abs_roundEven_sub_le (quotient n d * 10))
  have hshown : |tenthsShown n d - n / d| ≤ 1 / 20 + n / d / 2 ^ 51 := by
    rw [tenthsShown, abs_le]
    constructor <;> linarith
  calc |tenthsShown n d * d - n| = |tenthsShown n d - n / d| * d := by
        rw [← abs_of_pos hpos, ← abs_mul, abs_of_pos hpos, sub_mul, div_mul_cancel₀ _ hpos.ne']
    _ ≤ (1 / 20 + n / d / 2 ^ 51) * d := mul_le_mul_of_nonneg_right hshown hpos.le
    _ = d / 20 + n / 2 ^ 51 := by field_simp

/-- What is less than half a tenth below a whole number is shown as that number. -/
theorem tenthsShown_lt_iff {n : Nat} (hn : n < 2 ^ 53) (k m : Nat) :
    tenthsShown n (2 ^ k) < m ↔ 20 * n + 2 ^ k < 20 * m * 2 ^ k := by
  have hpow : (0 : Rat) < 2 ^ k := by positivity
  have heven : ((m * 10 : Nat) : Int) % 2 = 0 := by omega
  calc tenthsShown n (2 ^ k) < m ↔ (roundEven (quotient n (2 ^ k) * 10) : Rat) < m * 10 := div_lt_iff₀ (by norm_num)
    _ ↔ roundEven (quotient n (2 ^ k) * 10) < (m * 10 : Nat) := by
      rw [← Int.cast_lt (R := Rat)]
      push_cast
      rfl
    _ ↔ quotient n (2 ^ k) * 10 < (m * 10 : Nat) - 1 / 2 := by
      have hround := even_le_roundEven_iff heven (q := quotient n (2 ^ k) * 10)
      rw [Int.cast_natCast] at hround
      rw [← not_le, ← not_le, hround]
    _ ↔ (20 * n + 2 ^ k : Rat) < 20 * m * 2 ^ k := by
      rw [quotient_two_pow hn, div_mul_eq_mul_div, div_lt_iff₀ hpow]
      push_cast
      constructor <;> intro h <;> linarith
    _ ↔ 20 * n + 2 ^ k < 20 * m * 2 ^ k := by exact_mod_cast Iff.rfl

/-! ## Bytes -/

/-- A unit of bytes. -/
inductive ByteUnit where
  | bytes
  | kibibytes
  | mebibytes
  | gibibytes
  deriving DecidableEq

namespace ByteUnit

/-- The text behind a number of them. -/
def text : ByteUnit → String
  | bytes => " B"
  | kibibytes => " KiB"
  | mebibytes => " MiB"
  | gibibytes => " GiB"

/-- The bytes in one of them. -/
def size : ByteUnit → Nat
  | bytes => 1
  | kibibytes => kibibyte
  | mebibytes => mebibyte
  | gibibytes => gibibyte

/-- The largest unit that a number of bytes reaches. -/
def reached (n : Nat) : ByteUnit :=
  if gibibyte ≤ n then gibibytes else if mebibyte ≤ n then mebibytes else if kibibyte ≤ n then kibibytes else bytes

theorem scale?_text (u : ByteUnit) : scale? u.text = some u.size := by
  cases u <;> rfl

theorem endsNumber_text (u : ByteUnit) : EndsNumber u.text := by
  cases u <;> decide

theorem size_eq (u : ByteUnit) : ∃ k ≤ 30, u.size = 2 ^ k := by
  cases u
  case bytes => exact ⟨0, by decide, rfl⟩
  case kibibytes => exact ⟨10, by decide, rfl⟩
  case mebibytes => exact ⟨20, by decide, rfl⟩
  case gibibytes => exact ⟨30, by decide, rfl⟩

/-- The unit is reached, and the next one is not. -/
theorem reached_bounds (n : Nat) : (reached n ≠ bytes → (reached n).size ≤ n) ∧
    (reached n ≠ gibibytes → n < 1024 * (reached n).size) := by
  unfold reached
  split_ifs with hgib hmib hkib
  case pos => exact ⟨fun _ => hgib, fun h => absurd rfl h⟩
  case pos => exact ⟨fun _ => hmib, fun _ => Nat.lt_of_not_le hgib⟩
  case pos => exact ⟨fun _ => hkib, fun _ => Nat.lt_of_not_le hmib⟩
  case neg => exact ⟨fun h => absurd rfl h, fun _ => Nat.lt_of_not_le hkib⟩

/-- More bytes reach the same unit, or one that is at least the next. -/
theorem reached_mono {m n : Nat} (h : m ≤ n) :
    reached m = reached n ∨ (reached m ≠ gibibytes ∧ reached n ≠ bytes ∧ 1024 * (reached m).size ≤ (reached n).size) := by
  by_cases heq : reached m = reached n
  · exact .inl heq
  right
  obtain ⟨hm, hm'⟩ := reached_bounds m
  obtain ⟨hn, hn'⟩ := reached_bounds n
  revert heq hm hm' hn hn'
  cases reached m <;> cases reached n <;> simp [size, kibibyte, mebibyte, gibibyte] <;> omega

/-- Whatever is below the next unit's reach is a number of few bits. -/
theorem lt_of_reached {n : Nat} (h : reached n ≠ gibibytes) : n < 2 ^ 53 := by
  have hlt := (reached_bounds n).2 h
  have hsize : (reached n).size ≤ mebibyte := by
    revert h
    cases reached n <;> decide
  have hmib : mebibyte = 1048576 := rfl
  omega

end ByteUnit

open ByteUnit

/-- Bytes are shown in the largest unit that they reach, with one decimal unless that is the byte itself. -/
theorem shown?_formatBytes (n : Nat) :
    shown? (formatBytes n) = some ⟨tenthsShown n (reached n).size, (reached n).text⟩ := by
  unfold formatBytes reached
  split_ifs with hgib hmib hkib
  case pos => exact shown?_tenths n gibibyte (endsNumber_text gibibytes)
  case pos => exact shown?_tenths n mebibyte (endsNumber_text mebibytes)
  case pos => exact shown?_tenths n kibibyte (endsNumber_text kibibytes)
  case neg =>
    have hkibibyte : kibibyte = 1024 := rfl
    have hself := tenthsShown_mul (m := n) (k := 0) (by omega)
    rw [pow_zero, Nat.mul_one] at hself
    show shown? (toString n ++ bytes.text) = some ⟨tenthsShown n 1, bytes.text⟩
    rw [shown?_toString n (endsNumber_text bytes), hself]

/-- A number of bytes is not shown as more than 1024 of a unit below the largest. -/
theorem tenthsShown_le {n : Nat} (h : reached n ≠ gibibytes) : tenthsShown n (reached n).size ≤ 1024 := by
  obtain ⟨k, hk, hsize⟩ := size_eq (reached n)
  have hn := (reached_bounds n).2 h
  rw [hsize] at hn ⊢
  have hpow : 2 ^ k ≤ 2 ^ 30 := Nat.pow_le_pow_right (by decide) hk
  calc tenthsShown n (2 ^ k) ≤ tenthsShown (1024 * 2 ^ k) (2 ^ k) := tenthsShown_mono hn.le _
    _ = 1024 := by exact_mod_cast tenthsShown_mul (m := 1024) (k := k) (by omega)

theorem le_tenthsShown {n : Nat} (h : reached n ≠ bytes) : 1 ≤ tenthsShown n (reached n).size := by
  obtain ⟨k, hk, hsize⟩ := size_eq (reached n)
  have hn := (reached_bounds n).1 h
  rw [hsize] at hn ⊢
  have hpow : 2 ^ k ≤ 2 ^ 30 := Nat.pow_le_pow_right (by decide) hk
  calc (1 : Rat) = tenthsShown (1 * 2 ^ k) (2 ^ k) := by exact_mod_cast (tenthsShown_mul (m := 1) (k := k) (by omega)).symm
    _ ≤ tenthsShown n (2 ^ k) := tenthsShown_mono (by omega) _

/-- How a number of bytes is shown. -/
structure ShownAs (value : Nat) (unit : ByteUnit) (number : Rat) : Prop where
  /-- The unit is the largest that the value reaches. -/
  reached : unit ≠ bytes → unit.size ≤ value
  below : unit ≠ gibibytes → value < 1024 * unit.size
  /-- The number is below 1024, unless the value is at least 1023.95 of its unit: that is shown as 1024.0. -/
  lt_iff : unit ≠ gibibytes → (number < 1024 ↔ 20 * value < 20479 * unit.size)
  eq_iff : unit ≠ gibibytes → (number = 1024 ↔ 20479 * unit.size ≤ 20 * value)

/-- Every number of bytes is shown in its unit, and as at most 1024 of any unit but the largest. -/
theorem MetricUnit.bytes_shown (value : UInt64) : ∃ unit number,
    shown? (MetricUnit.bytes.format value) = some ⟨number, ByteUnit.text unit⟩ ∧ ShownAs value.toNat unit number := by
  refine ⟨ByteUnit.reached value.toNat, _, shown?_formatBytes value.toNat, ?_⟩
  obtain ⟨hreached, hbelow⟩ := reached_bounds value.toNat
  have hlt : ByteUnit.reached value.toNat ≠ gibibytes → (tenthsShown value.toNat (ByteUnit.reached value.toNat).size < 1024 ↔
      20 * value.toNat < 20479 * (ByteUnit.reached value.toNat).size) := by
    intro h
    obtain ⟨k, -, hsize⟩ := size_eq (ByteUnit.reached value.toNat)
    have hiff := tenthsShown_lt_iff (lt_of_reached h) k 1024
    rw [Nat.cast_ofNat, ← hsize] at hiff
    rw [hiff]
    omega
  refine ⟨hreached, hbelow, hlt, fun h => ?_⟩
  rw [← not_lt, ← hlt h, not_lt]
  exact ⟨fun heq => heq.ge, fun hge => le_antisymm (tenthsShown_le h) hge⟩

/-- The last byte before a mebibyte makes 1024.0 kibibytes. -/
theorem mebibyte_rounded_up : MetricUnit.bytes.format 1048575 = "1024.0 KiB" ∧
    ¬∀ (value : UInt64) (unit : ByteUnit) (number : Rat), unit ≠ gibibytes →
      shown? (MetricUnit.bytes.format value) = some ⟨number, unit.text⟩ → number < 1024 := by
  have htext : MetricUnit.bytes.format 1048575 = "1024.0 KiB" := by decide +kernel
  refine ⟨htext, fun h => ?_⟩
  have hshown : shown? "1024.0 KiB" = some ⟨1024, kibibytes.text⟩ := by decide +kernel
  exact absurd (h 1048575 kibibytes 1024 (by decide) (htext ▸ hshown)) (lt_irrefl _)

/-! ## Order -/

/-- How much one of the unit is that a value is shown in. -/
def MetricUnit.size (unit : MetricUnit) (n : Nat) : Nat :=
  match unit with
  | count => 1
  | time => 1000000
  | bytes => (ByteUnit.reached n).size

/-- The number that a value is shown as. -/
def MetricUnit.number (unit : MetricUnit) (n : Nat) : Rat :=
  match unit with
  | count => n
  | time | bytes => tenthsShown n (unit.size n)

theorem MetricUnit.shown?_format (unit : MetricUnit) (value : UInt64) : ∃ behind,
    shown? (unit.format value) = some ⟨unit.number value.toNat, behind⟩ ∧ scale? behind = some (unit.size value.toNat) := by
  cases unit
  case count =>
    have hshown : shown? (toString value.toNat ++ "") = some ⟨value.toNat, ""⟩ := shown?_toString _ (by decide)
    rw [String.append_empty] at hshown
    exact ⟨"", hshown, rfl⟩
  case time => exact ⟨"ms", shown?_tenths value.toNat 1000000 (by decide), rfl⟩
  case bytes => exact ⟨_, shown?_formatBytes value.toNat, scale?_text _⟩

theorem MetricUnit.size_pos (unit : MetricUnit) (n : Nat) : 0 < unit.size n := by
  cases unit
  case count => exact Nat.one_pos
  case time => show 0 < 1000000; omega
  case bytes =>
    obtain ⟨k, -, hsize⟩ := size_eq (ByteUnit.reached n)
    show 0 < (ByteUnit.reached n).size
    rw [hsize]
    exact Nat.two_pow_pos k

theorem MetricUnit.abs_quantity_sub_le (unit : MetricUnit) (n : Nat) :
    |unit.number n * unit.size n - n| ≤ (unit.size n : Rat) / 20 + n / 2 ^ 51 := by
  cases unit
  case count =>
    have hself : MetricUnit.count.number n * MetricUnit.count.size n - n = 0 := by
      simp [MetricUnit.number, MetricUnit.size]
    rw [hself, abs_zero]
    positivity
  case time => exact abs_tenthsShown_sub_le n (MetricUnit.time.size_pos n)
  case bytes => exact abs_tenthsShown_sub_le n (MetricUnit.bytes.size_pos n)

theorem MetricUnit.quantity_mono (unit : MetricUnit) {m n : Nat} (h : m ≤ n) :
    unit.number m * unit.size m ≤ unit.number n * unit.size n := by
  cases unit
  case count =>
    show (m : Rat) * (1 : Nat) ≤ n * (1 : Nat)
    exact_mod_cast Nat.mul_le_mul_right 1 h
  case time => exact mul_le_mul_of_nonneg_right (tenthsShown_mono h _) (Nat.cast_nonneg _)
  case bytes =>
    simp only [MetricUnit.number, MetricUnit.size]
    rcases reached_mono h with heq | ⟨hm, hn, hsize⟩
    · rw [heq]
      exact mul_le_mul_of_nonneg_right (tenthsShown_mono h _) (Nat.cast_nonneg _)
    · have hcast : (1024 : Rat) * (ByteUnit.reached m).size ≤ (ByteUnit.reached n).size := by exact_mod_cast hsize
      calc tenthsShown m (ByteUnit.reached m).size * (ByteUnit.reached m).size
          ≤ 1024 * (ByteUnit.reached m).size := mul_le_mul_of_nonneg_right (tenthsShown_le hm) (Nat.cast_nonneg _)
        _ ≤ (ByteUnit.reached n).size := hcast
        _ ≤ tenthsShown n (ByteUnit.reached n).size * (ByteUnit.reached n).size :=
          le_mul_of_one_le_left (Nat.cast_nonneg _) (le_tenthsShown hn)

/-- A text shows a value to half a tenth of the unit that it names, and what floating point is off. -/
def Shows (text : String) (value : Nat) : Prop :=
  ∃ shown size, shown? text = some shown ∧ scale? shown.unit = some size ∧
    |shown.number * size - value| ≤ (size : Rat) / 20 + value / 2 ^ 51

/-- A text shows at most as much as another. -/
def ShowsAtMost (text text' : String) : Prop :=
  ∃ x y, quantity? text = some x ∧ quantity? text' = some y ∧ x ≤ y

theorem MetricUnit.quantity?_format (unit : MetricUnit) (value : UInt64) :
    quantity? (unit.format value) = some (unit.number value.toNat * unit.size value.toNat) := by
  obtain ⟨behind, hshown, hscale⟩ := unit.shown?_format value
  simp only [quantity?, hshown, hscale, Option.bind_eq_bind, Option.bind_some]
  rfl

/-- Every reading is shown, and a larger one of the same metric never as less; so records that are in order of a field read
in order. -/
theorem Record.getFormatted_keepsOrder (m : Metric) (a : Aggregate) :
    (∀ r : Record, Shows (r.getFormatted m a) (r.get m a).toNat) ∧
      (∀ r r' : Record, r.get m a ≤ r'.get m a → ShowsAtMost (r.getFormatted m a) (r'.getFormatted m a)) ∧
      ∀ records, (sortBy ⟨m, a⟩ records).Pairwise fun r r' => ShowsAtMost (r'.getFormatted m a) (r.getFormatted m a) := by
  have hshows : ∀ r : Record, Shows (r.getFormatted m a) (r.get m a).toNat := by
    intro r
    obtain ⟨behind, hshown, hscale⟩ := MetricUnit.shown?_format _ (r.get m a)
    exact ⟨_, _, hshown, hscale, MetricUnit.abs_quantity_sub_le _ _⟩
  have hmono : ∀ r r' : Record, r.get m a ≤ r'.get m a → ShowsAtMost (r.getFormatted m a) (r'.getFormatted m a) := by
    intro r r' hle
    exact ⟨_, _, MetricUnit.quantity?_format _ _, MetricUnit.quantity?_format _ _,
      MetricUnit.quantity_mono _ (UInt64.le_iff_toNat_le.1 hle)⟩
  exact ⟨hshows, hmono, fun records => (sortBy_descending ⟨m, a⟩ records).imp fun hle => hmono _ _ hle⟩

/-- A record of one event. -/
def recordOf (computer : ComputerId) (m : Metric) (value : UInt64) : Record :=
  ((Record.create computer).observe (.event m value)).1

def bytesRead : Metric := ⟨0, "bytes_read", .event .bytes⟩

/-- Of two neighbours on both sides of a mebibyte, which show the same quantity in two units. -/
theorem keepsOrder_acrossUnits :
    (recordOf ⟨1⟩ bytesRead 1048575).get bytesRead .none ≤ (recordOf ⟨2⟩ bytesRead 1048576).get bytesRead .none ∧
      ((recordOf ⟨1⟩ bytesRead 1048575).getFormatted bytesRead .none = "1024.0 KiB" ∧
        (recordOf ⟨2⟩ bytesRead 1048576).getFormatted bytesRead .none = "1.0 MiB") ∧
      ShowsAtMost ((recordOf ⟨1⟩ bytesRead 1048575).getFormatted bytesRead .none)
        ((recordOf ⟨2⟩ bytesRead 1048576).getFormatted bytesRead .none) := by
  have hle : (recordOf ⟨1⟩ bytesRead 1048575).get bytesRead .none ≤
      (recordOf ⟨2⟩ bytesRead 1048576).get bytesRead .none := by decide +kernel
  exact ⟨hle, ⟨by decide +kernel, by decide +kernel⟩, (Record.getFormatted_keepsOrder bytesRead .none).2.1 _ _ hle⟩

end FairShare.Metrics

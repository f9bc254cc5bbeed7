import FairShare.ComputerId
import Mathlib.Algebra.Group.Nat.Defs

/-!
# How ids are spelled

The texts that name a computer are spellings of its number: at most one hash, at most one plus sign, and decimal digits,
which may begin with zeros. A spelling of a number beyond 32 bits is too large, and so is every text that begins with one,
since the digits are read from the left and the first fault is the one that counts.
-/

namespace FairShare.ComputerId

/-- A character that may be left out. -/
def mark (c : Char) : Bool → List Char
  | true => [c]
  | false => []

/-- A way to write a number. -/
structure Spelling where
  /-- It begins with a hash. -/
  hash : Bool
  /-- A plus sign stands before the digits. -/
  plus : Bool
  /-- The digits, the one of the largest power first. -/
  digits : List Char
  /-- There is a digit. -/
  nonempty : digits ≠ []
  /-- They are the ASCII digits. -/
  isDigit : ∀ c ∈ digits, c.isDigit = true

namespace Spelling

/-- The characters of a spelling. -/
def chars (spelling : Spelling) : List Char :=
  mark '#' spelling.hash ++ (mark '+' spelling.plus ++ spelling.digits)

/-- The text of a spelling. -/
def text (spelling : Spelling) : String := String.ofList spelling.chars

/-- The number that is spelled. -/
def number (spelling : Spelling) : Nat := Nat.ofDigitChars 10 spelling.digits 0

/-- The shortest spelling of a number, with a hash or without one. -/
def shortest (hash : Bool) (n : Nat) : Spelling where
  hash := hash
  plus := false
  digits := Nat.toDigits 10 n
  nonempty := Nat.toDigits_ne_nil
  isDigit := fun _ hc => Nat.isDigit_of_mem_toDigits (by decide) (by decide) hc

theorem number_shortest (hash : Bool) (n : Nat) : (shortest hash n).number = n := Nat.ofDigitChars_ten_toDigits

theorem text_shortest_false (n : Nat) : (shortest false n).text = toString n :=
  Nat.toString_eq_ofList_toDigits.symm

theorem text_shortest_true (n : Nat) : (shortest true n).text = "#" ++ toString n := by
  rw [Nat.toString_eq_ofList_toDigits, ← String.toList_inj, String.toList_append]
  simp [text, chars, shortest, mark]

theorem toList_text (spelling : Spelling) : spelling.text.toList = spelling.chars := String.toList_ofList

end Spelling

/-! ## Digits -/

/-- The value of the digits read so far with one more of them. -/
def withDigit (value : Nat) (c : Char) : Nat := 10 * value + (c.toNat - '0'.toNat)

theorem ofDigitChars_cons (c : Char) (rest : List Char) (value : Nat) :
    Nat.ofDigitChars 10 (c :: rest) value = Nat.ofDigitChars 10 rest (withDigit value c) := Nat.ofDigitChars_cons

theorem le_ofDigitChars (cs : List Char) (value : Nat) : value ≤ Nat.ofDigitChars 10 cs value := by
  induction cs generalizing value with
  | nil => exact Nat.le_refl value
  | cons c rest ih =>
    have hdigit : value ≤ withDigit value c := by
      unfold withDigit
      omega
    exact Nat.le_trans hdigit (ih _)

theorem parseDigits_of_not_isDigit {c : Char} {rest : List Char} {value : Nat} (hc : c.isDigit = false) :
    parseDigits value (c :: rest) = .error .invalidDigit := by
  simp [parseDigits, digit?, hc]

theorem parseDigits_of_isDigit {c : Char} {rest : List Char} {value : Nat} (hc : c.isDigit = true) :
    parseDigits value (c :: rest) =
      if withDigit value c < 2 ^ 32 then parseDigits (withDigit value c) rest else .error .overflow := by
  rw [parseDigits, digit?, if_pos hc]
  rfl

/-- Digits are read whose value fits into 32 bits. -/
theorem parseDigits_eq_ok_iff {cs : List Char} {value n : Nat} (hvalue : value < 2 ^ 32) :
    parseDigits value cs = .ok n ↔
      (∀ c ∈ cs, c.isDigit = true) ∧ Nat.ofDigitChars 10 cs value = n ∧ n < 2 ^ 32 := by
  induction cs generalizing value with
  | nil =>
    simp only [parseDigits, Except.ok.injEq, List.not_mem_nil, false_implies, implies_true, true_and,
      Nat.ofDigitChars_nil]
    exact ⟨fun h => ⟨h, h ▸ hvalue⟩, fun h => h.1⟩
  | cons c rest ih =>
    rw [List.forall_mem_cons, ofDigitChars_cons]
    cases hc : c.isDigit with
    | false => simp [parseDigits_of_not_isDigit hc]
    | true =>
      rw [parseDigits_of_isDigit hc]
      split
      case isTrue hfits => rw [ih hfits, eq_self, true_and]
      case isFalse hlarge =>
        -- What follows only makes the value larger.
        have hrest := le_ofDigitChars rest (withDigit value c)
        simp only [reduceCtorEq, eq_self, true_and, false_iff, not_and]
        rintro - rfl
        omega

/-- Digits are too many as soon as those read so far do not fit into 32 bits. -/
theorem parseDigits_eq_overflow_iff {cs : List Char} {value : Nat} (hvalue : value < 2 ^ 32) :
    parseDigits value cs = .error .overflow ↔
      ∃ digits, digits <+: cs ∧ (∀ c ∈ digits, c.isDigit = true) ∧ 2 ^ 32 ≤ Nat.ofDigitChars 10 digits value := by
  induction cs generalizing value with
  | nil =>
    simp only [parseDigits, reduceCtorEq, List.prefix_nil, false_iff]
    rintro ⟨digits, rfl, -, hlarge⟩
    exact absurd hvalue (Nat.not_lt.2 hlarge)
  | cons c rest ih =>
    have hbegins : (∃ digits, digits <+: c :: rest ∧ (∀ c ∈ digits, c.isDigit = true) ∧
        2 ^ 32 ≤ Nat.ofDigitChars 10 digits value) ↔ c.isDigit = true ∧ ∃ digits, digits <+: rest ∧
          (∀ c ∈ digits, c.isDigit = true) ∧ 2 ^ 32 ≤ Nat.ofDigitChars 10 digits (withDigit value c) := by
      constructor
      · rintro ⟨_ | ⟨first, digits⟩, hdigits, hall, hlarge⟩
        case nil => exact absurd hvalue (Nat.not_lt.2 hlarge)
        case cons =>
          obtain ⟨rfl, htail⟩ := List.cons_prefix_cons.1 hdigits
          obtain ⟨hfirst, hall⟩ := List.forall_mem_cons.1 hall
          exact ⟨hfirst, digits, htail, hall, hlarge⟩
      · rintro ⟨hc, digits, hdigits, hall, hlarge⟩
        exact ⟨c :: digits, List.cons_prefix_cons.2 ⟨rfl, hdigits⟩, List.forall_mem_cons.2 ⟨hc, hall⟩, hlarge⟩
    rw [hbegins]
    cases hc : c.isDigit with
    | false => simp [parseDigits_of_not_isDigit hc]
    | true =>
      rw [parseDigits_of_isDigit hc]
      split
      case isTrue hfits => rw [ih hfits, eq_self, true_and]
      case isFalse hlarge =>
        simp only [eq_self, true_and, true_iff]
        exact ⟨[], List.nil_prefix, by simp, Nat.not_lt.1 hlarge⟩

theorem parseDigits_ne_empty (cs : List Char) (value : Nat) : parseDigits value cs ≠ .error .empty := by
  induction cs generalizing value with
  | nil => simp [parseDigits]
  | cons c rest ih =>
    cases hc : c.isDigit with
    | false => simp [parseDigits_of_not_isDigit hc]
    | true =>
      rw [parseDigits_of_isDigit hc]
      split
      case isTrue => exact ih _
      case isFalse => simp

/-! ## What stands before the digits -/

theorem stripHash_mark {rest : List Char} (hash : Bool) (hrest : rest.head? ≠ some '#') :
    stripHash (mark '#' hash ++ rest) = rest := by
  cases hash with
  | true => rfl
  | false =>
    rw [mark, List.nil_append]
    unfold stripHash
    split
    case h_1 => exact absurd rfl hrest
    case h_2 => rfl

theorem exists_mark_stripHash (cs : List Char) : ∃ hash, cs = mark '#' hash ++ stripHash cs := by
  unfold stripHash
  split
  case h_1 => exact ⟨true, rfl⟩
  case h_2 => exact ⟨false, rfl⟩

theorem parseNumber_mark {digits : List Char} (plus : Bool) (hnonempty : digits ≠ [])
    (hdigits : digits.head? ≠ some '+') : parseNumber (mark '+' plus ++ digits) = parseDigits 0 digits := by
  obtain ⟨c, rest, rfl⟩ := List.exists_cons_of_ne_nil hnonempty
  have hc : c ≠ '+' := fun h => hdigits (congrArg some h)
  cases plus with
  | true => rfl
  | false =>
    rw [mark, List.nil_append]
    unfold parseNumber
    split
    case h_1 h => cases h
    case h_2 h => exact absurd (List.cons.inj h).1 hc
    case h_3 h => exact absurd (List.cons.inj h).1 hc
    case h_4 => rfl

/-- What follows the hash is nothing, a plus sign alone, or characters with a plus sign before them or without one. -/
theorem parseNumber_cases (cs : List Char) :
    cs = [] ∨ parseNumber cs = .error .invalidDigit ∨
      ∃ plus digits, digits ≠ [] ∧ cs = mark '+' plus ++ digits ∧ parseNumber cs = parseDigits 0 digits := by
  unfold parseNumber
  split
  case h_1 => exact .inl rfl
  case h_2 => exact .inr (.inl rfl)
  case h_3 digits hdigits => exact .inr (.inr ⟨true, digits, hdigits, rfl, rfl⟩)
  case h_4 hnonempty _ _ => exact .inr (.inr ⟨false, cs, hnonempty, rfl, rfl⟩)

variable {s : String} {id : ComputerId}

/-- A text ends with its hash, ends with its plus sign, or goes on with characters that are read as digits. -/
theorem parts (s : String) :
    ((s = "" ∨ s = "#") ∧ parseNumber (stripHash s.toList) = .error .empty) ∨
      parseNumber (stripHash s.toList) = .error .invalidDigit ∨
        ∃ hash plus digits, digits ≠ [] ∧ s.toList = mark '#' hash ++ (mark '+' plus ++ digits) ∧
          parseNumber (stripHash s.toList) = parseDigits 0 digits := by
  obtain ⟨hash, hhash⟩ := exists_mark_stripHash s.toList
  rcases parseNumber_cases (stripHash s.toList) with hnil | hinvalid | ⟨plus, digits, hnonempty, hplus, hparse⟩
  · refine .inl ⟨?_, by rw [hnil]; rfl⟩
    rw [hnil, List.append_nil] at hhash
    cases hash with
    | false => exact .inl (String.toList_inj.1 hhash)
    | true => exact .inr (String.toList_inj.1 hhash)
  · exact .inr (.inl hinvalid)
  · exact .inr (.inr ⟨hash, plus, digits, hnonempty, by rw [← hplus, ← hhash], hparse⟩)

/-- A spelling with any digits that stand at the front of those a text is read from. -/
theorem exists_spelling {hash plus : Bool} {digits rest : List Char} (hnonempty : digits ≠ [])
    (hdigits : ∀ c ∈ digits, c.isDigit = true) (hs : s.toList = mark '#' hash ++ (mark '+' plus ++ (digits ++ rest))) :
    ∃ spelling : Spelling, spelling.digits = digits ∧ s.toList = spelling.chars ++ rest :=
  ⟨⟨hash, plus, digits, hnonempty, hdigits⟩, rfl, by simp only [hs, Spelling.chars, List.append_assoc]⟩

/-- Once a text begins like a spelling, all that is left is to read digits. -/
theorem parseNumber_spelled {spelling : Spelling} {rest : List Char}
    (hs : s.toList = spelling.chars ++ rest) :
    parseNumber (stripHash s.toList) = parseDigits 0 (spelling.digits ++ rest) := by
  obtain ⟨hash, plus, digits, hnonempty, hdigits⟩ := spelling
  obtain ⟨c, others, rfl⟩ := List.exists_cons_of_ne_nil hnonempty
  have hc : c.isDigit = true := hdigits c List.mem_cons_self
  have hhash : (mark '+' plus ++ (c :: others ++ rest)).head? ≠ some '#' := by
    cases plus with
    | true =>
      rintro ⟨⟩
    | false =>
      rintro ⟨⟩
      cases hc
  have hplus : (c :: others ++ rest).head? ≠ some '+' := by
    rintro ⟨⟩
    cases hc
  rw [hs, Spelling.chars, List.append_assoc, List.append_assoc, stripHash_mark hash hhash,
    parseNumber_mark plus (by simp) hplus]

/-! ## Texts -/

theorem parse_eq_ok_iff :
    parse s = .ok id ↔ ∃ n, parseNumber (stripHash s.toList) = .ok n ∧ (⟨.ofNat n⟩ : ComputerId) = id := by
  unfold parse
  cases parseNumber (stripHash s.toList) <;> simp [Except.map]

theorem parse_eq_error_iff {error : ParseError} :
    parse s = .error error ↔ parseNumber (stripHash s.toList) = .error error := by
  unfold parse
  cases parseNumber (stripHash s.toList) <;> simp [Except.map]

theorem parse_ok_iff_spelling :
    parse s = .ok id ↔ ∃ spelling : Spelling, spelling.text = s ∧ spelling.number = id.number.toNat := by
  rw [parse_eq_ok_iff]
  constructor
  · rintro ⟨n, hn, rfl⟩
    rcases parts s with ⟨-, hempty⟩ | hinvalid | ⟨hash, plus, digits, hnonempty, hs, hparse⟩
    · cases hempty ▸ hn
    · cases hinvalid ▸ hn
    · obtain ⟨hdigits, hvalue, hfits⟩ := (parseDigits_eq_ok_iff (by decide)).1 (hparse ▸ hn)
      have hall : s.toList = mark '#' hash ++ (mark '+' plus ++ (digits ++ [])) := by rw [hs, List.append_nil]
      obtain ⟨spelling, rfl, hchars⟩ := exists_spelling hnonempty hdigits hall
      refine ⟨spelling, ?_, ?_⟩
      · rw [← String.toList_inj, Spelling.toList_text, hchars, List.append_nil]
      · rw [UInt32.toNat_ofNat_of_lt' hfits, Spelling.number, hvalue]
  · rintro ⟨spelling, rfl, hnumber⟩
    have hfits : spelling.number < 2 ^ 32 := hnumber ▸ id.number.toNat_lt
    refine ⟨spelling.number, ?_, ?_⟩
    · have hall : spelling.text.toList = spelling.chars ++ [] := by rw [Spelling.toList_text, List.append_nil]
      rw [parseNumber_spelled hall, List.append_nil]
      exact (parseDigits_eq_ok_iff (by decide)).2 ⟨spelling.isDigit, rfl, hfits⟩
    · rw [hnumber, UInt32.ofNat_toNat]

theorem parse_error_iff_spelling :
    (∃ error, parse s = .error error) ↔ ∀ spelling : Spelling, spelling.text = s → 2 ^ 32 ≤ spelling.number := by
  constructor
  · rintro ⟨error, herror⟩ spelling hs
    refine Nat.le_of_not_lt fun hfits => ?_
    have hnumber : spelling.number = (⟨.ofNat spelling.number⟩ : ComputerId).number.toNat :=
      (UInt32.toNat_ofNat_of_lt' hfits).symm
    rw [parse_ok_iff_spelling.2 ⟨spelling, hs, hnumber⟩] at herror
    cases herror
  · intro hlarge
    cases hparse : parse s with
    | error error => exact ⟨error, rfl⟩
    | ok id =>
      obtain ⟨spelling, hs, hnumber⟩ := parse_ok_iff_spelling.1 hparse
      exact absurd (hlarge spelling hs) (Nat.not_le.2 (hnumber ▸ id.number.toNat_lt))

theorem parse_empty_iff : parse s = .error .empty ↔ s = "" ∨ s = "#" := by
  rw [parse_eq_error_iff]
  constructor
  · intro hempty
    rcases parts s with ⟨hs, -⟩ | hinvalid | ⟨-, -, digits, -, -, hparse⟩
    · exact hs
    · cases hinvalid ▸ hempty
    · exact absurd (hparse ▸ hempty) (parseDigits_ne_empty digits 0)
  · rintro (rfl | rfl) <;> rfl

theorem parse_overflow_iff_spelling :
    parse s = .error .overflow ↔
      ∃ spelling : Spelling, spelling.text.toList <+: s.toList ∧ 2 ^ 32 ≤ spelling.number := by
  rw [parse_eq_error_iff]
  constructor
  · intro hoverflow
    rcases parts s with ⟨-, hempty⟩ | hinvalid | ⟨hash, plus, digits, hnonempty, hs, hparse⟩
    · cases hempty ▸ hoverflow
    · cases hinvalid ▸ hoverflow
    · obtain ⟨large, ⟨rest, rfl⟩, hdigits, hlarge⟩ := (parseDigits_eq_overflow_iff (by decide)).1 (hparse ▸ hoverflow)
      have hlarge_ne : large ≠ [] := by
        rintro rfl
        exact absurd hlarge (by decide)
      obtain ⟨spelling, rfl, hchars⟩ := exists_spelling hlarge_ne hdigits hs
      exact ⟨spelling, ⟨rest, by rw [Spelling.toList_text, hchars]⟩, hlarge⟩
  · rintro ⟨spelling, ⟨rest, hs⟩, hlarge⟩
    rw [Spelling.toList_text] at hs
    rw [parseNumber_spelled hs.symm]
    exact (parseDigits_eq_overflow_iff (by decide)).2
      ⟨spelling.digits, List.prefix_append _ _, spelling.isDigit, hlarge⟩

/-- What ids are read from, and why another text is refused. -/
structure Reads (s : String) : Prop where
  /-- An id is read from the spellings of its number. -/
  ok : ∀ id, parse s = .ok id ↔ ∃ spelling : Spelling, spelling.text = s ∧ spelling.number = id.number.toNat
  /-- Every text that spells no number of 32 bits is refused. -/
  error : (∃ error, parse s = .error error) ↔ ∀ spelling : Spelling, spelling.text = s → 2 ^ 32 ≤ spelling.number
  /-- The text is empty if nothing but a hash is there. -/
  empty : parse s = .error .empty ↔ s = "" ∨ s = "#"
  /-- The number is too large if the text begins with a spelling of one beyond 32 bits. -/
  overflow : parse s = .error .overflow ↔
    ∃ spelling : Spelling, spelling.text.toList <+: s.toList ∧ 2 ^ 32 ≤ spelling.number

/-- An id is read from the spellings of its number and from no other text, and among them are the text it is written as and
what follows the hash there. -/
theorem parse_reads :
    (∀ s, Reads s) ∧
      ∀ id : ComputerId, ∃ number, id.text = "#" ++ number ∧ parse id.text = .ok id ∧ parse number = .ok id := by
  refine ⟨fun s => ⟨fun _ => parse_ok_iff_spelling, parse_error_iff_spelling, parse_empty_iff,
    parse_overflow_iff_spelling⟩, fun id => ⟨toString id.number.toNat, rfl, ?_, ?_⟩⟩
  · exact parse_ok_iff_spelling.2 ⟨.shortest true id.number.toNat, Spelling.text_shortest_true _,
      Spelling.number_shortest true _⟩
  · exact parse_ok_iff_spelling.2 ⟨.shortest false id.number.toNat, Spelling.text_shortest_false _,
      Spelling.number_shortest false _⟩

example : parse "#+007" = .ok ⟨7⟩ := by rfl

example : parse "##1" = .error .invalidDigit := by rfl

end FairShare.ComputerId

import FairShare.Json.Basic

/-!
# Reading JSON

A text is first cut into tokens, then the tokens are put together by an automaton (`Builder.step`) whose
state is what has to come next and the arrays and objects that are still open. Both passes recurse on
their input. `read` accepts a text if it is one value between optional blanks.
-/

namespace FairShare.Json

/-- A token of a document. -/
inductive Token where
  /-- `[` -/
  | openArray
  /-- `]` -/
  | closeArray
  /-- An opening brace. -/
  | openObject
  /-- A closing brace. -/
  | closeObject
  /-- `,` -/
  | comma
  /-- `:` -/
  | colon
  /-- A string. -/
  | text (s : Option String)
  /-- A number or a literal. -/
  | scalar (value : Json)

/-- The blanks between tokens. -/
def isBlank (c : Char) : Bool := c == ' ' || c == '\n' || c == '\t' || c == '\r'

/-- The value of a digit in base sixteen. -/
def hexDigit? (c : Char) : Option Nat :=
  if c.isDigit then some (c.toNat - '0'.toNat)
  else if 'a' ≤ c && c ≤ 'f' then some (c.toNat - 'a'.toNat + 10)
  else if 'A' ≤ c && c ≤ 'F' then some (c.toNat - 'A'.toNat + 10)
  else none

/-- The code unit that four digits in base sixteen stand for. -/
def codeUnit? (a b c d : Char) : Option Nat := do
  return 4096 * (← hexDigit? a) + 256 * (← hexDigit? b) + 16 * (← hexDigit? c) + (← hexDigit? d)

/-- The text of a list of code units and code points: the halves of a surrogate pair stand together for
one character, and alone for none. -/
def joinSurrogates : List Nat → Option (List Char)
  | [] => some []
  | hi :: lo :: rest =>
    if 0xD800 ≤ hi && hi < 0xDC00 then
      if 0xDC00 ≤ lo && lo < 0xE000 then
        (joinSurrogates rest).map (Char.ofNat (0x10000 + 0x400 * (hi - 0xD800) + (lo - 0xDC00)) :: ·)
      else none
    else if 0xDC00 ≤ hi && hi < 0xE000 then none
    else (joinSurrogates (lo :: rest)).map (Char.ofNat hi :: ·)
  | [c] => if 0xD800 ≤ c && c < 0xE000 then none else some [Char.ofNat c]

/-- What a backslash and one letter stand for. -/
def shortEscape? : Char → Option Nat
  | '"' => some '"'.toNat
  | '\\' => some '\\'.toNat
  | '/' => some '/'.toNat
  | 'b' => some 8
  | 'f' => some 12
  | 'n' => some 10
  | 'r' => some 13
  | 't' => some 9
  | _ => none

/-- Reads a string behind its opening quote: its code units and code points, and what follows its closing
quote. -/
def scanString : List Char → Option (List Nat × List Char)
  | [] => none
  | '"' :: rest => some ([], rest)
  | '\\' :: 'u' :: a :: b :: c :: d :: rest =>
    (codeUnit? a b c d).bind fun u => (scanString rest).map fun (us, r) => (u :: us, r)
  | '\\' :: e :: rest =>
    (shortEscape? e).bind fun u => (scanString rest).map fun (us, r) => (u :: us, r)
  | c :: rest =>
    if c.toNat < 0x20 || c == '\\' then none
    else (scanString rest).map fun (us, r) => (c.toNat :: us, r)

/-- The digits at the front of a text, and the rest. -/
def spanDigits (cs : List Char) : List Char × List Char :=
  (cs.takeWhile Char.isDigit, cs.dropWhile Char.isDigit)

/-- The value of a list of digits. -/
def digitsValue (ds : List Char) : Nat :=
  ds.foldl (fun n d => 10 * n + (d.toNat - '0'.toNat)) 0

/-- What follows the fraction at the front of a text, if there is one; `none` if it has no digits. -/
def skipFraction? : List Char → Option (List Char)
  | '.' :: rest => match spanDigits rest with
    | ([], _) => none
    | (_, r) => some r
  | cs => some cs

/-- Drops a sign at the front of a text. -/
def skipSign : List Char → List Char
  | '+' :: rest => rest
  | '-' :: rest => rest
  | cs => cs

/-- What follows the exponent at the front of a text, if there is one; `none` if it has no digits. -/
def skipExponent? : List Char → Option (List Char)
  | c :: rest =>
    if c == 'e' || c == 'E' then
      match spanDigits (skipSign rest) with
      | ([], _) => none
      | (_, r) => some r
    else some (c :: rest)
  | [] => some []

/-- Reads the number at the front of a text. A leading zero stands alone, so that further digits make
another token. -/
def scanNumber (cs : List Char) : Option (Json × List Char) := do
  let signed := cs.head? == some '-'
  let unsigned := if signed then cs.tail else cs
  let (digits, rest) ← match unsigned with
    | '0' :: rest => some (['0'], rest)
    | _ => match spanDigits unsigned with
      | ([], _) => none
      | parts => some parts
  let rest' ← skipFraction? rest
  let rest'' ← skipExponent? rest'
  return (if signed || rest''.length != rest.length then .number else .natural (digitsValue digits), rest'')

/-- Reads the token at the front of a text. -/
def scanToken : List Char → Option (Token × List Char)
  | '[' :: rest => some (.openArray, rest)
  | ']' :: rest => some (.closeArray, rest)
  | '\x7b' :: rest => some (.openObject, rest)
  | '\x7d' :: rest => some (.closeObject, rest)
  | ',' :: rest => some (.comma, rest)
  | ':' :: rest => some (.colon, rest)
  | '"' :: rest => (scanString rest).map fun (us, r) => (.text ((joinSurrogates us).map String.ofList), r)
  | 'n' :: 'u' :: 'l' :: 'l' :: rest => some (.scalar .null, rest)
  | 't' :: 'r' :: 'u' :: 'e' :: rest => some (.scalar (.bool true), rest)
  | 'f' :: 'a' :: 'l' :: 's' :: 'e' :: rest => some (.scalar (.bool false), rest)
  | cs => (scanNumber cs).map fun (n, r) => (.scalar n, r)

/-- Cuts a text into tokens. Each token takes at least one character, so as many steps as the text has
characters are enough. -/
def tokens (steps : Nat) (cs : List Char) : Option (List Token) :=
  match steps, cs.dropWhile isBlank with
  | _, [] => some []
  | 0, _ => none
  | steps + 1, cs => (scanToken cs).bind fun (t, rest) => (tokens steps rest).map (t :: ·)

/-- An array or object that is still open, with what it holds so far, last first. -/
inductive Frame where
  /-- An array. -/
  | array (items : List Json)
  /-- An object, and the name whose value has to come. -/
  | object (entries : List (Option String × Json)) (name : Option String)

/-- How far a document has been put together. -/
inductive Builder where
  /-- A value has to come. -/
  | nextValue (outer : List Frame)
  /-- An array was opened. -/
  | firstItem (outer : List Frame)
  /-- An item was read. -/
  | afterItem (items : List Json) (outer : List Frame)
  /-- An object was opened. -/
  | firstName (outer : List Frame)
  /-- A name has to come. -/
  | nextName (entries : List (Option String × Json)) (outer : List Frame)
  /-- A colon has to come. -/
  | afterName (entries : List (Option String × Json)) (name : Option String) (outer : List Frame)
  /-- An entry was read. -/
  | afterEntry (entries : List (Option String × Json)) (outer : List Frame)
  /-- The document is complete. -/
  | finished (value : Json)

namespace Builder

/-- A value is complete. -/
def deliver (value : Json) : List Frame → Builder
  | [] => finished value
  | .array items :: outer => afterItem (value :: items) outer
  | .object entries name :: outer => afterEntry ((name, value) :: entries) outer

/-- A value begins. -/
def begin? (outer : List Frame) : Token → Option Builder
  | .openArray => some (firstItem outer)
  | .openObject => some (firstName outer)
  | .text s => some (deliver (.string s) outer)
  | .scalar value => some (deliver value outer)
  | _ => none

/-- Takes in the next token. -/
def step : Builder → Token → Option Builder
  | nextValue outer, t => begin? outer t
  | firstItem outer, .closeArray => some (deliver (.array []) outer)
  | firstItem outer, t => begin? (.array [] :: outer) t
  | afterItem items outer, .comma => some (nextValue (.array items :: outer))
  | afterItem items outer, .closeArray => some (deliver (.array items.reverse) outer)
  | firstName outer, .closeObject => some (deliver (.object []) outer)
  | firstName outer, .text s => some (afterName [] s outer)
  | nextName entries outer, .text s => some (afterName entries s outer)
  | afterName entries s outer, .colon => some (nextValue (.object entries s :: outer))
  | afterEntry entries outer, .comma => some (nextName entries outer)
  | afterEntry entries outer, .closeObject => some (deliver (.object entries.reverse) outer)
  | _, _ => none

end Builder

/-- Reads a document. -/
def read (s : String) : Option Json := do
  let ts ← tokens s.length s.toList
  match ← ts.foldlM Builder.step (.nextValue []) with
  | .finished value => some value
  | _ => none

end FairShare.Json

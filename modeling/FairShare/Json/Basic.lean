/-!
# JSON documents

A document as a tree. Of numbers only those written as plain digits are kept by value, since no format
of this library holds any other; a string keeps its text unless one of its `\u` escapes is half of a
surrogate pair, which stands for no text.

`Json.fields?` reads the fields of a record, which may be written as an object, in any order, or as the
array of its values.
-/

namespace FairShare

/-- A JSON document. -/
inductive Json where
  /-- The literal `null`. -/
  | null
  /-- A truth value. -/
  | bool (b : Bool)
  /-- A number written as digits alone. -/
  | natural (n : Nat)
  /-- A number with a sign, a fraction or an exponent. -/
  | number
  /-- A string; `none` if its escapes stand for no text. -/
  | string (text : Option String)
  /-- An array. -/
  | array (items : List Json)
  /-- An object, with its entries as written. -/
  | object (entries : List (Option String × Json))

namespace Json

/-- A field of an object, by its name. -/
def field (name : String) (value : Json) : Option String × Json := (some name, value)

/-- Whether a record may have entries under other names. -/
inductive Others where
  /-- They are passed over. -/
  | ignored
  /-- They are errors. -/
  | refused
  deriving DecidableEq

/-- Puts the entries of an object in their places among the values found so far; `none` if a name is no
text, if a known name comes twice, or if an unknown one is refused. -/
def place? (names : List String) (others : Others) :
    List (Option String × Json) → List (Option Json) → Option (List (Option Json))
  | [], found => some found
  | (none, _) :: _, _ => none
  | (some name, value) :: rest, found =>
    match names.idxOf? name with
    | none => if others = .ignored then place? names others rest found else none
    | some i => match found[i]? with
      | some none => place? names others rest (found.set i (some value))
      | _ => none

/-- The values of a record's fields in the order of `names`, `none` where a field is not written. -/
def fields? (names : List String) (others : Others) : Json → Option (List (Option Json))
  | .object entries => place? names others entries (names.map fun _ => none)
  | .array items =>
    if items.length ≤ names.length then
      some (items.map some ++ List.replicate (names.length - items.length) none)
    else none
  | _ => none

/-- A number below `bound`. -/
def below? (bound : Nat) : Json → Option Nat
  | .natural n => if n < bound then some n else none
  | _ => none

/-- A 32-bit number. -/
def word32? (j : Json) : Option UInt32 := (j.below? 0x100000000).map UInt32.ofNat

/-- A 64-bit number. -/
def word64? (j : Json) : Option UInt64 := (j.below? 0x10000000000000000).map UInt64.ofNat

/-- An array of 64-bit numbers. -/
def words? : Json → Option (List UInt64)
  | .array items => items.mapM word64?
  | _ => none

/-- Reads a field that keeps its default where it is not written. -/
def fieldOr {α : Type} (default : α) (read : Json → Option α) : Option Json → Option α
  | none => some default
  | some j => read j

end Json

end FairShare

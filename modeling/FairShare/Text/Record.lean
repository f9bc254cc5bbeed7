/-!
# Record text

The text of a record for people who look for faults: its name, then its fields in braces. Records that
keep some of their fields to themselves end in two dots.
-/

namespace FairShare.Text

/-- The text of a record; `rest` says whether it has fields that are not shown. -/
def record (name : String) (fields : List (String × String)) (rest : Bool) : String :=
  let shown := fields.map (fun f => f.1 ++ ": " ++ f.2) ++ if rest then [".."] else []
  name ++ " \x7b " ++ String.intercalate ", " shown ++ " \x7d"

/-- The text of a variant that holds one value. -/
def variant (name value : String) : String := name ++ "(" ++ value ++ ")"

/-- The text of a truth value. -/
def ofBool (b : Bool) : String := if b then "true" else "false"

end FairShare.Text

import DateSpan.Json
import DateSpan.Json.Document
import DateSpan.Range.Text

/-!
# Ranges in JSON

In JSON a range is the string of its text. `Range.ofJson` reads such a document in
any spelling of the string. The text is judged before what follows the string: if it
is no range, that is the error, whatever comes after it.
-/

namespace DateSpan

/-- Why a JSON document is no range. -/
inductive DocumentFault where
  /-- The document is no string, or more than a string. -/
  | document (fault : Json.Fault)
  /-- The document begins with a string whose text is no range. -/
  | range (error : Error)
deriving DecidableEq, Repr

def DocumentFault.message : DocumentFault → String
  | .document fault => fault.name
  | .range error => error.describe

namespace Range

def toJson (r : Range) : Json := .string r.text

def ofJson (document : String) : Except DocumentFault Range :=
  match Json.readText document with
  | .error fault => .error (.document fault)
  | .ok (cs, after) =>
    match parse (String.ofList cs) with
    | .error e => .error (.range e)
    | .ok r => if Json.isEnd after then .ok r else .error (.document .malformed)

end Range

end DateSpan

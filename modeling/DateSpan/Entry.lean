import DateSpan.Column
import DateSpan.Json
import DateSpan.Range.Json
import DateSpan.Stream.Source

/-!
# Entries

An entry is a cell and the number of the input line it was read from. It is put out
as one line, in one of two encodings:

* `human`: the text of the cell and the digits of its bytes, with a tab between;
* `json`: an object with the text, the digits and the bounds of the range.

The number of the line is part of the output only when the output is verbose.
-/

namespace DateSpan

structure Entry where
  lineNumber : Nat
  cell : Cell
deriving DecidableEq

inductive Encoding where
  | human
  | json
deriving DecidableEq, Repr

namespace Encoding

/-- The encoding of a name, which may be shortened to its first letter. -/
def ofName (name : String) : Except Error Encoding :=
  if name = "h" ∨ name = "human" then .ok human
  else if name = "j" ∨ name = "json" then .ok json
  else .error (.other (.unknownEncoding name))

end Encoding

namespace Entry

/-- The digits of a cell's bytes; none for the null value. -/
def hex? (c : Cell) : Option (List Char) := (Cell.serialize c).map Hex.encode

/-! ## For reading by eye -/

def columns (c : Cell) : List Char :=
  (Cell.text c).toList ++ '\t' :: (hex? c).getD Cell.nullWord.toList

def human (verbose : Bool) (e : Entry) : List Char :=
  if verbose then Numeral.digits e.lineNumber ++ [':', ' '] ++ columns e.cell else columns e.cell

/-! ## As JSON -/

def member (key : String) (value : Json) : List Char × Json := (key.toList, value)

def boundJson : Bound → Json
  | .unbounded => .object [member "unbounded" (.boolean true)]
  | .bounded m =>
    .object [member "timestamp" (.number m.instant),
      member "precision" (.string m.precision.name.toList)]

/-- The members of an entry. The bounds are there only as far as the range has them. -/
def members (verbose : Bool) (e : Entry) : List (List Char × Json) :=
  (if verbose then [member "line" (.number e.lineNumber)] else []) ++
  [member "range" (e.cell.elim .null Range.toJson),
    member "bytes" ((hex? e.cell).elim .null .string)] ++
  (match e.cell with
    | none => []
    | some r => member "lower" (boundJson r.lower) ::
      (r.upper?.map fun b => member "upper" (boundJson b)).toList)

def json (verbose : Bool) (e : Entry) : Json := .object (members verbose e)

/-! ## Either -/

/-- The line of an entry, without its end. -/
def text (encoding : Encoding) (verbose : Bool) (e : Entry) : List Char :=
  match encoding with
  | .human => human verbose e
  | .json => (json verbose e).write

/-- The bytes of the line of an entry, with its end. -/
def line (encoding : Encoding) (verbose : Bool) (e : Entry) : List UInt8 :=
  Utf8.encode (text encoding verbose e) ++ [Stream.lineFeed]

end Entry

end DateSpan

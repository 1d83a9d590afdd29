import DateSpan.Calendar.DateTime
import DateSpan.Pattern.Year

/-!
# Patterns

A pattern is a list of items, each a calendar field or a fixed character. The same
pattern serves to write a date and to read one: `Pattern.write` puts the items
down one after another, and `Pattern.parse` accepts a text that the items cover
from its first character to its last.

Fields have fixed widths, save the year, which takes all the digits there are.
-/

namespace DateSpan

inductive Pattern.Item where
  | year
  | month
  | day
  | hour
  | minute
  | second
  /-- A point and the milliseconds. -/
  | milli
  /-- A character that stands for itself. -/
  | mark (c : Char)
deriving DecidableEq, Repr

abbrev Pattern := List Pattern.Item

namespace Pattern

/-! ## Items -/

namespace Item

/-- The item as a percent sign and a letter. -/
def template : Item → List Char
  | year => ['%', 'Y']
  | month => ['%', 'm']
  | day => ['%', 'd']
  | hour => ['%', 'H']
  | minute => ['%', 'M']
  | second => ['%', 'S']
  | milli => ['%', '.', '3', 'f']
  | mark c => [c]

def write (t : DateTime) : Item → List Char
  | year => Year.iso t.year
  | month => Numeral.padded 2 t.month
  | day => Numeral.padded 2 t.day
  | hour => Numeral.padded 2 t.hour
  | minute => Numeral.padded 2 t.minute
  | second => Numeral.padded 2 t.second
  | milli => '.' :: Numeral.padded 3 t.milli
  | mark c => [c]

/-- Reads the item's field into a date; what comes after the item is left. -/
def read (t : DateTime) (cs : List Char) : Item → Option (DateTime × List Char)
  | year => (Year.read cs).map fun (n, rest) => ({ t with year := n }, rest)
  | month => (Numeral.read 2 cs).map fun (n, rest) => ({ t with month := n }, rest)
  | day => (Numeral.read 2 cs).map fun (n, rest) => ({ t with day := n }, rest)
  | hour => (Numeral.read 2 cs).map fun (n, rest) => ({ t with hour := n }, rest)
  | minute => (Numeral.read 2 cs).map fun (n, rest) => ({ t with minute := n }, rest)
  | second => (Numeral.read 2 cs).map fun (n, rest) => ({ t with second := n }, rest)
  | milli =>
    match cs with
    | '.' :: cs => (Numeral.read 3 cs).map fun (n, rest) => ({ t with milli := n }, rest)
    | _ => none
  | mark c =>
    match cs with
    | d :: cs => if d = c then some (t, cs) else none
    | [] => none

end Item

/-! ## Whole patterns -/

/-- The pattern as a format string, with percent signs before its fields. -/
def template (pattern : Pattern) : String := String.ofList (pattern.flatMap Item.template)

def write (pattern : Pattern) (t : DateTime) : List Char := pattern.flatMap (Item.write t)

/-- Reads the fields of a pattern into a date, from a text that ends with the
pattern. -/
def read : Pattern → DateTime → List Char → Option DateTime
  | [], t, [] => some t
  | [], _, _ :: _ => none
  | item :: pattern, t, cs =>
    match item.read t cs with
    | some (t, rest) => read pattern t rest
    | none => none

/-- Reads a date of the calendar. Fields that are missing from the pattern are those
of the epoch, and so the least. -/
def parse (pattern : Pattern) (cs : List Char) : Option DateTime :=
  (read pattern .epoch cs).filter fun t => t.Valid

theorem parse_eq_some_iff {pattern : Pattern} {cs : List Char} {t : DateTime} :
    parse pattern cs = some t ↔ read pattern .epoch cs = some t ∧ t.Valid := by
  simp [parse, Option.filter_eq_some_iff]

end Pattern

end DateSpan

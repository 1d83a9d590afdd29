import DateSpan.Pattern
import DateSpan.Precision.Rounding

/-!
# Dates in writing

A date is written down to its precision and no further, so its form tells the
precision. From the hour on a `Z` may follow: milliseconds are written with it,
the rest without, and reading takes both.

`Precision.infer` finds the precision of a text by trying all patterns in turn and
rounds the date to the end of its period that the edge asks for.
-/

namespace DateSpan

namespace Precision

/-- What a precision puts after the text of the next coarser one. -/
def addition : Precision → Pattern
  | year => [.year]
  | month => [.mark '-', .month]
  | day => [.mark '-', .day]
  | hour => [.mark 'T', .hour]
  | minute => [.mark ':', .minute]
  | second => [.mark ':', .second]
  | millisecond => [.milli]

/-- The fields down to a precision, with the characters between them. -/
def stem (p : Precision) : Pattern := (all.reverse.filter (· ≤ p)).flatMap addition

/-- The patterns of a precision; the first of them is the one to write with. -/
def patterns : Precision → List Pattern
  | year => [year.stem]
  | month => [month.stem]
  | day => [day.stem]
  | hour => [hour.stem, hour.stem ++ [.mark 'Z']]
  | minute => [minute.stem, minute.stem ++ [.mark 'Z']]
  | second => [second.stem, second.stem ++ [.mark 'Z']]
  | millisecond => [millisecond.stem ++ [.mark 'Z'], millisecond.stem]

def primary (p : Precision) : Pattern := p.patterns.headD []

/-- Each pattern with its precision, in the order in which a text is tried. -/
def candidates : List (Precision × Pattern) := all.flatMap fun p => p.patterns.map fun f => (p, f)

/-- Writes a date down to the precision. Years up to `0` do without the pattern's own way
to write a year: they take five characters, the minus sign among them. -/
def writeDate (p : Precision) (t : DateTime) : List Char :=
  if t.year ≤ 0 then Numeral.signedPadded 5 t.year ++ Pattern.write p.primary.tail t
  else p.primary.write t

theorem primary_write (p : Precision) (t : DateTime) :
    p.primary.write t = Year.iso t.year ++ Pattern.write p.primary.tail t := by
  cases p <;> rfl

/-- **The branch for years up to `0` tells in the year `0` only**, where it puts a zero in
front of what the pattern has. -/
theorem writeDate_eq (p : Precision) (t : DateTime) :
    p.writeDate t = (if t.year = 0 then ['0'] else []) ++ p.primary.write t := by
  rw [writeDate]
  rcases Int.lt_trichotomy t.year 0 with hneg | hzero | hpos
  · rw [if_pos (by omega), if_neg (by omega), Year.signedPadded_of_neg hneg, primary_write]
    rfl
  · rw [if_pos (by omega), if_pos hzero, primary_write, hzero]
    rfl
  · rw [if_neg (by omega), if_neg (by omega)]
    rfl

/-- Writes the date of an instant down to the precision. -/
def write? (p : Precision) (instant : Int) : Option (List Char) :=
  (DateTime.ofInstant? instant).map p.writeDate

theorem write?_eq_some_iff {p : Precision} {instant : Int} {cs : List Char} :
    p.write? instant = some cs ↔
      InCalendar instant ∧ cs = p.writeDate (DateTime.ofInstant instant) := by
  simp [write?, DateTime.ofInstant?, eq_comm]

/-- The first of some patterns that a text is in: the instant it names, at one end
of its period, and the precision. -/
def inferAmong (candidates : List (Precision × Pattern)) (edge : Edge) (cs : List Char) :
    Option (Int × Precision) :=
  candidates.findSome? fun (p, pattern) =>
    (pattern.parse cs).map fun t => (p.round edge t.toInstant, p)

/-- The instant that a text names, at one end of its period, and the precision. -/
def infer (edge : Edge) (cs : List Char) : Option (Int × Precision) :=
  inferAmong candidates edge cs

/-- Reads a text that is a date and nothing else. -/
def parse (edge : Edge) (text : String) : Except Error (Int × Precision) :=
  match infer edge text.toList with
  | some found => .ok found
  | none => .error (.grammar text 0 .unmatched)

theorem parse_eq_ok_iff {edge : Edge} {text : String} {found : Int × Precision} :
    parse edge text = .ok found ↔ infer edge text.toList = some found := by
  delta parse
  split
  · next h => simp [h]
  · next h => simp [h]

theorem parse_eq_error_iff {edge : Edge} {text : String} {e : Error} :
    parse edge text = .error e ↔
      infer edge text.toList = none ∧ e = .grammar text 0 .unmatched := by
  delta parse
  split
  · next h => simp [h]
  · next h => simp [h, eq_comm]

/-- Eleven patterns are tried in all. -/
example : candidates.length = 11 := by decide

end Precision

/-- An instant to the millisecond, without a zone; outside the calendar, the bare
number of milliseconds. -/
def timestampText (instant : Int) : String :=
  match DateTime.ofInstant? instant with
  | some t => String.ofList (Precision.millisecond.stem.write t)
  | none => String.ofList (Numeral.signed instant ++ ['m', 's'])

end DateSpan

import DateSpan.Column

/-!
# Records of a run

A run keeps a record of each line it could not read, and when it is verbose also of
each line it could. The record of a cell that was read shows the fields of the range
itself, down to the exact instants, and not its text.
-/

namespace DateSpan

/-! ## The fields of a range -/

def Precision.record : Precision → String
  | year => "Year"
  | month => "Month"
  | day => "Day"
  | hour => "Hour"
  | minute => "Minute"
  | second => "Second"
  | millisecond => "Millisecond"

def Bound.record : Bound → String
  | unbounded => "Unbounded"
  | bounded m =>
    s!"Bounded(Moment \x7b timestamp: {m.instant}, precision: {m.precision.record} \x7d)"

/-- The second bound of a range in a record. -/
def Bound.recordOption : Option Bound → String
  | none => "None"
  | some b => s!"Some({b.record})"

def Range.record (r : Range) : String :=
  s!"DateRange \x7b lower: {r.lower.record}, upper: {Bound.recordOption r.upper?} \x7d"

def Cell.record : Cell → String
  | none => "None"
  | some r => s!"Some({r.record})"

/-! ## Records -/

namespace Run

/-- How grave a record is. -/
inductive Level where
  | warn
  | debug
deriving DecidableEq, Repr

def Level.name : Level → String
  | .warn => "WARN"
  | .debug => "DEBUG"

structure Record where
  level : Level
  message : String
deriving DecidableEq, Repr

/-- The record of a line that could not be read. -/
def Record.refused (number : Nat) (line : List UInt8) (e : Error) : Record where
  level := .warn
  message :=
    s!"line {number} decoding failed: {e.describe} (line: {String.ofList (Utf8.decodeLossy line)})"

def Record.read (number : Nat) (c : Cell) : Record where
  level := .debug
  message := s!"line {number} decoded as {c.record}"

end Run

end DateSpan

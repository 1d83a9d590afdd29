import DateSpan.Precision.Text

/-!
# Bounds

A bound of a range is either open or a moment: an instant of the calendar, and the
precision it is meant to. The instant need not be at an end of its period; it is
there if the bound was made by `Bound.lower`, `Bound.upper` or from a text.
-/

namespace DateSpan

/-- An instant of the calendar at some precision. -/
structure Moment where
  instant : Int
  precision : Precision
  inCalendar : InCalendar instant
deriving DecidableEq

inductive Bound where
  | unbounded
  | bounded (moment : Moment)
deriving DecidableEq

namespace Moment

/-- The date of a moment, down to its precision. An instant without a date would be
put down as `timestampText` has it; `text_eq` says that no moment is. -/
def text (m : Moment) : List Char :=
  match m.precision.write? m.instant with
  | some cs => cs
  | none => (timestampText m.instant).toList

theorem text_eq (m : Moment) :
    m.text = m.precision.writeDate (DateTime.ofInstant m.instant) := by
  simp [text, Precision.write?, DateTime.ofInstant?, m.inCalendar]

theorem write?_instant (m : Moment) : m.precision.write? m.instant = some m.text := by
  simp [text_eq, Precision.write?, DateTime.ofInstant?, m.inCalendar]

end Moment

namespace Bound

/-- The text of an open bound, and of the range that is open altogether. -/
def openMark : List Char := ['*']

def moment? : Bound → Option Moment
  | unbounded => none
  | bounded m => some m

/-- The bound at exactly the given instant. -/
def exact (instant : Int) (p : Precision) : Except Error Bound :=
  if h : InCalendar instant then .ok (bounded ⟨instant, p, h⟩)
  else .error (.invalidArgument (.outsideCalendar instant))

theorem exact_eq_ok_iff {instant : Int} {p : Precision} {b : Bound} :
    exact instant p = .ok b ↔ ∃ h : InCalendar instant, b = bounded ⟨instant, p, h⟩ := by
  rw [exact]
  split
  · next h => simp [h, eq_comm]
  · next h => simp [h]

/-- The bound at the first instant of the period that the given one lies in. -/
def lower (instant : Int) (p : Precision) : Except Error Bound := exact (p.roundDown instant) p

/-- The bound at the last instant of the period that the given one lies in. -/
def upper (instant : Int) (p : Precision) : Except Error Bound := exact (p.roundUp instant) p

/-- A lower bound is not after an upper bound. Open bounds are before and after
everything. -/
def InOrder : Bound → Bound → Prop
  | bounded l, bounded u => l.instant ≤ u.instant
  | _, _ => True

instance : (l u : Bound) → Decidable (InOrder l u)
  | bounded l, bounded u => inferInstanceAs (Decidable (l.instant ≤ u.instant))
  | unbounded, _ => .isTrue trivial
  | bounded _, unbounded => .isTrue trivial

def text : Bound → List Char
  | unbounded => openMark
  | bounded m => m.text

/-- Reads a bound; a date is moved to the end of its period that the edge asks
for. -/
def parse (edge : Edge) (text : String) : Except Error Bound :=
  if text.toList = openMark then .ok unbounded
  else
    match Precision.parse edge text with
    | .ok (instant, p) => exact instant p
    | .error e => .error e

end Bound

end DateSpan

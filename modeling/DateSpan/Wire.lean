import DateSpan.Range
import DateSpan.Wire.Word

/-!
# The binary encoding of ranges

An encoding is a tag byte and the moments of the range, lower before upper. Which
of the two sides are moments, and whether there are two sides, is the `Layout`; the
tag names it, so the layout alone fixes the length. A moment takes nine bytes: its
instant, then the tag of its precision.

`Wire.decode` takes exactly one encoding, with nothing missing and nothing after
it.
-/

namespace DateSpan

/-- Which bounds of a range are moments. -/
inductive Layout where
  | singleBounded
  | closed
  | openHigh
  | openLow
  | bothOpen
  | singleUnbounded
deriving DecidableEq, Repr

namespace Layout

def of : Range → Layout
  | .single .unbounded => singleUnbounded
  | .single (.bounded _) => singleBounded
  | .between .unbounded .unbounded _ => bothOpen
  | .between .unbounded (.bounded _) _ => openLow
  | .between (.bounded _) .unbounded _ => openHigh
  | .between (.bounded _) (.bounded _) _ => closed

/-- The first byte of an encoding in this layout. -/
def tag : Layout → UInt8
  | singleBounded => 0
  | closed => 1
  | openHigh => 2
  | openLow => 3
  | bothOpen => 4
  | singleUnbounded => 5

def name : Layout → String
  | singleBounded => "SingleBounded"
  | closed => "Closed"
  | openHigh => "OpenHigh"
  | openLow => "OpenLow"
  | bothOpen => "BothOpen"
  | singleUnbounded => "SingleUnbounded"

def all : List Layout := [singleBounded, closed, openHigh, openLow, bothOpen, singleUnbounded]

/-- The layout that a first byte announces. -/
def ofTag (tag : UInt8) : Except Error Layout :=
  match all.find? fun l => l.tag == tag with
  | some l => .ok l
  | none => .error (.unknownTag tag)

def momentCount : Layout → Nat
  | closed => 2
  | singleBounded | openHigh | openLow => 1
  | bothOpen | singleUnbounded => 0

def momentLength : Nat := 9

def length (l : Layout) : Nat := 1 + momentLength * l.momentCount

@[simp] theorem ofTag_tag (l : Layout) : ofTag l.tag = .ok l := by cases l <;> rfl

end Layout

namespace Wire

/-! ## Writing -/

/-- A moment, as its instant and its precision; nothing for an open bound. -/
def encodeBound : Bound → List UInt8
  | .unbounded => []
  | .bounded m => Int64.toBytes m.instant ++ [m.precision.tag]

/-- The bounds of a range, lower before upper. -/
def encodeBounds : Range → List UInt8
  | .single bound => encodeBound bound
  | .between lower upper _ => encodeBound lower ++ encodeBound upper

def encode (r : Range) : List UInt8 := (Layout.of r).tag :: encodeBounds r

/-- The layout fixes the length. -/
theorem length_encode (r : Range) : (encode r).length = (Layout.of r).length := by
  rcases r with (_ | _) | ⟨_ | _, _ | _, _⟩ <;>
    simp [encode, encodeBounds, encodeBound, Layout.of, Layout.length, Layout.momentCount,
      Layout.momentLength]

/-! ## Reading -/

/-- Reads a moment off the front; what comes after it is left. -/
def takeBound (bytes : List UInt8) : Except Error (Bound × List UInt8) :=
  match bytes.drop 8 with
  | [] => .error (.truncated Layout.momentLength bytes.length)
  | tag :: rest => do
    let p ← Precision.ofTag tag
    let bound ← Bound.exact (Int64.ofBytes (bytes.take 8)) p
    return (bound, rest)

theorem exact_instant (m : Moment) : Bound.exact m.instant m.precision = .ok (.bounded m) := by
  simp [Bound.exact, m.inCalendar]

/-- The calendar fits into 64 bits. -/
theorem ofBytes_toBytes_instant (m : Moment) :
    Int64.ofBytes (Int64.toBytes m.instant) = m.instant := by
  obtain ⟨hl, hu⟩ := m.inCalendar
  unfold Calendar.earliest at hl
  unfold Calendar.latest at hu
  exact Int64.ofBytes_toBytes (by omega) (by omega)

/-- A moment reads back as itself, whatever comes after it. -/
theorem takeBound_encodeBound (m : Moment) (rest : List UInt8) :
    takeBound (encodeBound (.bounded m) ++ rest) = .ok (.bounded m, rest) := by
  have hl := Int64.length_toBytes m.instant
  have hd : (encodeBound (.bounded m) ++ rest).drop 8 = m.precision.tag :: rest := by
    simp [encodeBound, List.drop_left' hl]
  have ht : (encodeBound (.bounded m) ++ rest).take 8 = Int64.toBytes m.instant := by
    simp [encodeBound, List.take_left' hl]
  rw [takeBound, hd]
  simp only [ht, ofBytes_toBytes_instant, Precision.ofTag_tag, exact_instant, ok_bind]
  rfl

/-- Reads the moments of a layout and makes the range of them. -/
def decodeBounds (layout : Layout) (bytes : List UInt8) : Except Error Range :=
  match layout with
  | .singleBounded => do
    let (bound, _) ← takeBound bytes
    return .single bound
  | .closed => do
    let (lower, rest) ← takeBound bytes
    let (upper, _) ← takeBound rest
    Range.ofBounds lower upper
  | .openHigh => do
    let (lower, _) ← takeBound bytes
    Range.ofBounds lower .unbounded
  | .openLow => do
    let (upper, _) ← takeBound bytes
    Range.ofBounds .unbounded upper
  | .bothOpen => Range.ofBounds .unbounded .unbounded
  | .singleUnbounded => .ok (.single .unbounded)

def decode (bytes : List UInt8) : Except Error Range :=
  match bytes with
  | [] => .error (.truncated 1 0)
  | tag :: body => do
    let layout ← Layout.ofTag tag
    if bytes.length < layout.length then .error (.truncated layout.length bytes.length)
    else if layout.length < bytes.length then
      .error (.invalidArgument (.trailingBytes (bytes.length - layout.length)))
    else decodeBounds layout body

end Wire

end DateSpan

import DateSpan.Stream.Fault

/-!
# Reading lines

A source is the bytes that arrive, and then either its end or a fault. Its bytes are
cut into pieces after each delimiter; only the last piece may lack one. A line is a
piece without its delimiter, and where the delimiter is the line feed, also without a
carriage return before it.

A piece that the source broke off in the middle of is no line: it is lost.

`Source.read` takes one line off, and `Source.lines` has all of them.
-/

namespace DateSpan.Stream

/-- The line feed, which ends a line unless another delimiter is chosen. -/
def lineFeed : UInt8 := 10

/-- The carriage return, which may stand before a line feed. -/
def carriageReturn : UInt8 := 13

/-- Puts a byte before pieces. It begins a piece of its own if it is a delimiter. -/
def addByte (delimiter b : UInt8) : List (List UInt8) → List (List UInt8)
  | [] => [[b]]
  | piece :: more => if b = delimiter then [b] :: piece :: more else (b :: piece) :: more

/-- Cuts bytes after each delimiter. -/
def pieces (delimiter : UInt8) (bytes : List UInt8) : List (List UInt8) :=
  bytes.foldr (addByte delimiter) []

@[simp] theorem pieces_nil (delimiter : UInt8) : pieces delimiter [] = [] := rfl

@[simp] theorem pieces_cons (delimiter b : UInt8) (bytes : List UInt8) :
    pieces delimiter (b :: bytes) = addByte delimiter b (pieces delimiter bytes) := rfl

@[simp] theorem flatten_addByte (delimiter b : UInt8) (ps : List (List UInt8)) :
    (addByte delimiter b ps).flatten = b :: ps.flatten := by
  cases ps with
  | nil => rfl
  | cons p ps => by_cases h : b = delimiter <;> simp [addByte, h]

/-- Cutting loses nothing. -/
theorem flatten_pieces (delimiter : UInt8) (bytes : List UInt8) :
    (pieces delimiter bytes).flatten = bytes := by
  induction bytes with
  | nil => rfl
  | cons b bytes ih => rw [pieces_cons, flatten_addByte, ih]

def dropEnd (b : UInt8) (bytes : List UInt8) : List UInt8 :=
  if bytes.getLast? = some b then bytes.dropLast else bytes

/-- What a piece holds as a line. -/
def content (delimiter : UInt8) (piece : List UInt8) : List UInt8 :=
  let body := dropEnd delimiter piece
  if delimiter = lineFeed then dropEnd carriageReturn body else body

/-- A line, and the number of bytes it took. -/
structure Line where
  consumed : Nat
  content : List UInt8
deriving DecidableEq, Repr

structure Source where
  bytes : List UInt8
  /-- Reading on after these bytes is a fault, not the end. -/
  broken : Bool
deriving DecidableEq, Repr

namespace Source

/-- The source that delivers bytes up to its end or, if there is a limit, breaks after
so many of them. -/
def ofBytes (bytes : List UInt8) (limit : Option Nat) : Source :=
  match limit with
  | none => ⟨bytes, false⟩
  | some n => ⟨bytes.take n, true⟩

def whole (delimiter : UInt8) (s : Source) : List (List UInt8) :=
  if s.broken then (pieces delimiter s.bytes).filter fun piece => piece.getLast? = some delimiter
  else pieces delimiter s.bytes

def lines (delimiter : UInt8) (s : Source) : List Line :=
  (s.whole delimiter).map fun piece => ⟨piece.length, Stream.content delimiter piece⟩

def ending (s : Source) : Option Fault := if s.broken then some .sourceBroken else none

/-- Reads a line: up to the next delimiter or else up to the end, where it has taken no bytes if
there were none left. A source that breaks before the next delimiter is a fault. -/
def read (delimiter : UInt8) (s : Source) : Except Fault (Line × Source) :=
  if s.broken ∧ delimiter ∉ s.bytes then .error .sourceBroken
  else
    let next := s.bytes.idxOf delimiter + 1
    let piece := s.bytes.take next
    .ok (⟨piece.length, content delimiter piece⟩, { s with bytes := s.bytes.drop next })

end Source

end DateSpan.Stream

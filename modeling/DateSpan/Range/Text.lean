import DateSpan.Range
import DateSpan.Text.Reader

/-!
# Ranges in writing

A range with one bound is written as that bound, a range with two as
`[lower TO upper]`. A text that begins with a bracket is taken for two bounds, any
other one for a single bound, which is read as a lower bound.

When a text is refused, the error says where: at the start of the text if its
brackets or its separator are missing, otherwise at the bound that is no date.
Offsets count bytes.
-/

namespace DateSpan

namespace Range

def separator : List Char := [' ', 'T', 'O', ' ']

def text : Range → List Char
  | single bound => bound.text
  | between lower upper _ => '[' :: lower.text ++ separator ++ upper.text ++ [']']

instance : ToString Range := ⟨fun r => String.ofList r.text⟩

/-- Reads a bound and nothing else. -/
def readBound (edge : Edge) : Reader Bound := fun s => do
  let (left, text) ← Reader.rest s
  match Bound.parse edge (String.ofList text.chars) with
  | .ok bound => .ok (left, bound)
  | .error _ => .error (.failure (.fault s (.unmatchedBound (String.ofList text.chars))))

/-- Reads two bounds in brackets. -/
def readBrackets : Reader Range := fun s => do
  let (inner, _) ← Reader.char '[' s
  if inner.chars.getLast? ≠ some ']' then .error (.failure (.fault s .missingBracket))
  else
    let (closing, body) ← Reader.take (inner.chars.length - 1) inner
    match Reader.takeUntil separator body with
    | .error _ => .error (.failure (.fault s .missingSeparator))
    | .ok (fromSeparator, lowerText) =>
      let (upperText, _) ← Reader.tag separator fromSeparator
      let (_, lower) ← readBound .lower lowerText
      let (_, upper) ← readBound .upper upperText
      match ofBounds lower upper with
      | .error e => .error (.failure (.rejected e))
      | .ok range =>
        let (left, _) ← Reader.char ']' closing
        return (left, range)

/-- Reads a range: the mark of an open one, two bounds in brackets, or else a lower
bound. -/
def reader : Reader Range := fun s =>
  match Reader.allConsuming (Reader.tag Bound.openMark) s with
  | .ok (left, _) => .ok (left, single .unbounded)
  | .error _ =>
    if s.chars.head? = some '[' then readBrackets s
    else do
      let (left, lower) ← readBound .lower s
      return (left, single lower)

def parse (source : String) : Except Error Range := reader.run source

end Range

end DateSpan

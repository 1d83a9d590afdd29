import DateSpan.Column
import DateSpan.Text.Blank
import DateSpan.Text.Hex

/-!
# Lines of input

A line holds one cell, either in writing or as the hexadecimal digits of its bytes.
In both forms it may be the word for the null value, and it must be UTF-8.
-/

namespace DateSpan

inductive LineForm where
  /-- A cell in writing. -/
  | literal
  /-- The digits of a cell's bytes. -/
  | hex
deriving DecidableEq, Repr

namespace LineForm

def text (line : List UInt8) : Except Error (List Char) :=
  match Utf8.decode line with
  | .ok cs => .ok cs
  | .error fault => .error (.other (.notUtf8 fault))

def decodeLiteral (line : List UInt8) : Except Error Cell := do
  let cs ← text line
  Cell.parse (some (String.ofList cs))

/-- Reads digits, which may have white space around them. The word for the null
value may not. -/
def decodeHex (line : List UInt8) : Except Error Cell := do
  let cs ← text line
  if Letter.sameName (String.ofList cs) Cell.nullWord then .ok none
  else
    match Hex.decode (Blank.trim cs) with
    | some bytes => Cell.deserialize (some bytes)
    | none => .error (.other (.malformedHex (String.ofList (Blank.trim cs))))

def decode : LineForm → List UInt8 → Except Error Cell
  | literal => decodeLiteral
  | hex => decodeHex

end LineForm

end DateSpan

import DateSpan.Text.Hex
import DateSpan.Text.Numeral

/-!
# JSON values

The values that entries are made of, and their compact text: no white space, the
members of an object in the order they are given in, and only those characters
escaped that have to be.
-/

namespace DateSpan

inductive Json where
  | null
  | boolean (b : Bool)
  | number (n : Int)
  | string (s : List Char)
  | object (members : List (List Char × Json))

namespace Json

/-- How a character stands in a string: quotes, backslashes and control characters
are escaped, the rest stand for themselves. -/
def escape (c : Char) : List Char :=
  if c = '"' then ['\\', '"']
  else if c = '\\' then ['\\', '\\']
  else if c = '\x08' then ['\\', 'b']
  else if c = '\t' then ['\\', 't']
  else if c = '\n' then ['\\', 'n']
  else if c = '\x0c' then ['\\', 'f']
  else if c = '\r' then ['\\', 'r']
  else if c.toNat < 0x20 then ['\\', 'u', '0', '0'] ++ Hex.encode [UInt8.ofNat c.toNat]
  else [c]

def quote (s : List Char) : List Char := '"' :: s.flatMap escape ++ ['"']

mutual

def write : Json → List Char
  | null => ['n', 'u', 'l', 'l']
  | boolean true => ['t', 'r', 'u', 'e']
  | boolean false => ['f', 'a', 'l', 's', 'e']
  | number n => Numeral.signed n
  | string s => quote s
  | object members => '\x7b' :: writeMembers members ++ ['\x7d']

/-- Members, with commas between them. -/
def writeMembers : List (List Char × Json) → List Char
  | [] => []
  | [(key, value)] => quote key ++ ':' :: write value
  | (key, value) :: next :: more =>
    quote key ++ ':' :: write value ++ ',' :: writeMembers (next :: more)

end

end Json

end DateSpan

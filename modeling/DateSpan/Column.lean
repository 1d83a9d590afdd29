import DateSpan.Range.Text
import DateSpan.Wire

/-!
# Columns of ranges

A cell of a column holds a range or nothing: the null value, `none`. A cell is
exchanged as text and as bytes. In text the null value is the word `NULL`, as bytes
it is no bytes at all, which is no encoding of any range.
-/

namespace DateSpan

/-- What a cell of a column of ranges holds. -/
abbrev Cell := Option Range

namespace Cell

/-- The type of the column, by the name it is registered under. -/
def typeName : String := "org.apache.cassandra.db.marshal.DateRangeType"

def nullWord : String := "NULL"

def text : Cell → String
  | none => nullWord
  | some r => toString r

/-- Reads a cell. The word for the null value may be in letters of either case; no
text at all is the null value, too. -/
def parse : Option String → Except Error Cell
  | none => .ok none
  | some s => if Letter.sameName s nullWord then .ok none else (Range.parse s).map some

def serialize : Cell → Option (List UInt8)
  | none => none
  | some r => some (Wire.encode r)

def deserialize : Option (List UInt8) → Except Error Cell
  | none => .ok none
  | some [] => .ok none
  | some bytes => (Wire.decode bytes).map some

end Cell

end DateSpan

import DateSpan.LineForm
import DateSpan.Proofs.Entry
import DateSpan.Proofs.RoundTrip.Bytes
import DateSpan.Proofs.RoundTrip.Text

/-!
# The columns of an entry as lines of input

Each of the two columns that an entry has for reading by eye is a line of input in one of the
forms. The digits are read as the cell itself (`decode_digits`). The text is read as the cell with
its bounds settled (`decode_text`); that is the cell itself again if it was read from a text
before (`settle_of_decode_literal`).

For the null value both columns are the null word, which both forms know; the digits of a range
are never that word, and have no white space to be trimmed.
-/

namespace DateSpan

namespace Cell

/-- The text of a cell is read as that cell, settled. -/
theorem parse_ofList_text (v : Cell) :
    Cell.parse (some (String.ofList v.text.toList)) = .ok (v.map Range.settle) := by
  rw [String.ofList_toList]
  rcases v with _ | r
  · rfl
  · exact parse_some_eq_ok_some_iff.2 ⟨not_sameName_nullWord r, Range.parse_toString r⟩

theorem not_sameName_hex (bytes : List UInt8) :
    ¬ Letter.sameName (String.ofList (Hex.encode bytes)) nullWord :=
  not_sameName_of_forall (Hex.forall_mem_encode (P := fun c => c.toLower ≠ 'n') (by decide))

end Cell

namespace LineForm

theorem text_encode (cs : List Char) : text (Utf8.encode cs) = .ok cs := by
  rw [text, Utf8.decode_encode]

theorem decode_text (v : Cell) :
    literal.decode (Utf8.encode v.text.toList) = .ok (v.map Range.settle) := by
  rw [decode, decodeLiteral, text_encode, ok_bind, Cell.parse_ofList_text]

/-- A cell that was read from a text has its bounds settled. -/
theorem settle_of_decode_literal {line : List UInt8} {v : Cell}
    (h : literal.decode line = .ok v) : v.map Range.settle = v := by
  rcases v with _ | r
  · rfl
  · obtain ⟨cs, -, hparse⟩ := bind_eq_ok_iff.1 h
    have hsettled := Range.settled_of_parse (Cell.parse_some_eq_ok_some_iff.1 hparse).2
    rw [Option.map_some, Range.settle_eq_self_iff.2 hsettled]

theorem decode_digits (v : Cell) : hex.decode (Utf8.encode v.digits) = .ok v := by
  rw [decode, decodeHex, text_encode, ok_bind]
  rcases v with _ | r
  · rfl
  · have hdigits : Cell.digits (some r) = Hex.encode (Wire.encode r) := rfl
    have htrim : Blank.trim (Hex.encode (Wire.encode r)) = Hex.encode (Wire.encode r) :=
      Blank.trim_of_not_isBlank
        (Hex.forall_mem_encode (P := fun c => Blank.isBlank c = false) (by decide))
    rw [hdigits, if_neg (Cell.not_sameName_hex _), htrim, Hex.decode_encode]
    exact Cell.deserialize_some_eq_ok_some_iff.2 rfl

end LineForm

end DateSpan

import DateSpan.Pattern.Year
import DateSpan.Proofs.Entry
import DateSpan.Run.Record

/-!
# Line numbers

A record, and in a verbose run the line of an entry, shows the number of an input line. Where
the number stands is known from the form of the text alone: after a mark at its beginning. So it
can be read off (`numberAfter`), and it can be made greater (`advanceAfter`), without regard to
where the text comes from.

That these come to the number that the text was made with is said for records
(`Record.advance_refused`, `Record.advance_read`) and for the lines of entries
(`Entry.advance_text`). A line that is not verbose becomes the verbose one when the number is put
into it: `Entry.withNumber_text`.
-/

namespace DateSpan

namespace Numeral

/-- The number that stands after a mark at the beginning of a text. -/
def numberAfter (mark cs : List Char) : Nat :=
  value ((cs.drop mark.length).takeWhile Char.isDigit)

/-- The text with a greater number after the mark. -/
def advanceAfter (mark : List Char) (k : Nat) (cs : List Char) : List Char :=
  mark ++ digits (numberAfter mark cs + k) ++ (cs.drop mark.length).dropWhile Char.isDigit

variable {rest : List Char}

theorem numberAfter_digits (hrest : ∀ c ∈ rest.head?, ¬ c.isDigit) (mark : List Char) (n : Nat) :
    numberAfter mark (mark ++ digits n ++ rest) = n := by
  obtain ⟨htake, -⟩ := Year.span_digits (fun _ => isDigit_of_mem_digits (n := n)) hrest
  rw [numberAfter, List.append_assoc, List.drop_left, htake, value_digits]

theorem advanceAfter_digits (hrest : ∀ c ∈ rest.head?, ¬ c.isDigit) (mark : List Char)
    (k n : Nat) :
    advanceAfter mark k (mark ++ digits n ++ rest) = mark ++ digits (n + k) ++ rest := by
  obtain ⟨-, hdrop⟩ := Year.span_digits (fun _ => isDigit_of_mem_digits (n := n)) hrest
  rw [advanceAfter, numberAfter_digits hrest, List.append_assoc mark (digits n), List.drop_left,
    hdrop]

end Numeral

namespace Run.Record

/-- What comes before the number in a record. -/
def mark : List Char := ['l', 'i', 'n', 'e', ' ']

/-- The number that a record shows. -/
def number (r : Record) : Nat := Numeral.numberAfter mark r.message.toList

/-- The record with a greater number. -/
def advance (k : Nat) (r : Record) : Record :=
  { r with message := String.ofList (Numeral.advanceAfter mark k r.message.toList) }

theorem toList_message_refused (line : List UInt8) (e : Error) : ∃ rest, ∀ n,
    (refused n line e).message.toList = mark ++ Numeral.digits n ++ ' ' :: rest := by
  let tail := s!"decoding failed: {e.describe} (line: {String.ofList (Utf8.decodeLossy line)})"
  refine ⟨tail.toList, fun n => ?_⟩
  have hdigits : (toString n).toList = Numeral.digits n := String.toList_ofList
  simp only [refused, String.toList_append, hdigits, tail, List.append_assoc]
  rfl

theorem toList_message_read (c : Cell) : ∃ rest, ∀ n,
    (read n c).message.toList = mark ++ Numeral.digits n ++ ' ' :: rest := by
  refine ⟨(s!"decoded as {c.record}").toList, fun n => ?_⟩
  have hdigits : (toString n).toList = Numeral.digits n := String.toList_ofList
  simp only [read, String.toList_append, hdigits, List.append_assoc]
  rfl

@[simp] theorem level_refused (n : Nat) (line : List UInt8) (e : Error) :
    (refused n line e).level = .warn := rfl

@[simp] theorem level_read (n : Nat) (c : Cell) : (read n c).level = .debug := rfl

/-- After the number comes a blank, so that its digits end there. -/
theorem not_isDigit_head_blank (rest : List Char) : ∀ c ∈ (' ' :: rest).head?, ¬ c.isDigit := by
  intro c hc
  cases hc
  decide

@[simp] theorem number_refused (n : Nat) (line : List UInt8) (e : Error) :
    (refused n line e).number = n := by
  obtain ⟨rest, h⟩ := toList_message_refused line e
  rw [number, h, Numeral.numberAfter_digits (not_isDigit_head_blank rest)]

@[simp] theorem number_read (n : Nat) (c : Cell) : (read n c).number = n := by
  obtain ⟨rest, h⟩ := toList_message_read c
  rw [number, h, Numeral.numberAfter_digits (not_isDigit_head_blank rest)]

@[simp] theorem advance_refused (k n : Nat) (line : List UInt8) (e : Error) :
    (refused n line e).advance k = refused (n + k) line e := by
  obtain ⟨rest, h⟩ := toList_message_refused line e
  have hmessage : String.ofList (Numeral.advanceAfter mark k (refused n line e).message.toList) =
      (refused (n + k) line e).message := by
    rw [h, Numeral.advanceAfter_digits (not_isDigit_head_blank rest), ← h, String.ofList_toList]
  rw [advance, hmessage]
  rfl

@[simp] theorem advance_read (k n : Nat) (c : Cell) :
    (read n c).advance k = read (n + k) c := by
  obtain ⟨rest, h⟩ := toList_message_read c
  have hmessage : String.ofList (Numeral.advanceAfter mark k (read n c).message.toList) =
      (read (n + k) c).message := by
    rw [h, Numeral.advanceAfter_digits (not_isDigit_head_blank rest), ← h, String.ofList_toList]
  rw [advance, hmessage]
  rfl

end Run.Record

namespace Entry

/-- What comes before the number in a verbose line. -/
def mark : Encoding → List Char
  | .human => []
  | .json => ['\x7b', '"', 'l', 'i', 'n', 'e', '"', ':']

/-- The line with a number put into it: in front of a line for reading by eye, and as the first
member, which others follow, of an object. -/
def withNumber (encoding : Encoding) (n : Nat) (cs : List Char) : List Char :=
  match encoding with
  | .human => Numeral.digits n ++ [':', ' '] ++ cs
  | .json => mark .json ++ Numeral.digits n ++ ',' :: cs.tail

/-- A line that is not verbose is the same whatever the number. -/
theorem text_plain (encoding : Encoding) (m n : Nat) (v : Cell) :
    text encoding false ⟨m, v⟩ = text encoding false ⟨n, v⟩ := by
  cases encoding <;> rfl

/-- **A verbose line is the plain one with the number put into it.** -/
theorem withNumber_text (encoding : Encoding) (m n : Nat) (v : Cell) :
    withNumber encoding n (text encoding false ⟨m, v⟩) = text encoding true ⟨n, v⟩ := by
  cases encoding with
  | human => rfl
  | json =>
    have hsigned : Numeral.signed (n : Int) = Numeral.digits n := if_neg (by omega)
    have hwrite : text .json true ⟨n, v⟩ =
        mark .json ++ Numeral.signed n ++ ',' :: (text .json false ⟨m, v⟩).tail := by
      have hquote : Json.quote ['l', 'i', 'n', 'e'] = ['"', 'l', 'i', 'n', 'e', '"'] := rfl
      simp [text, json, members, member, Json.write, Json.writeMembers, mark, hquote]
    rw [hwrite, hsigned, withNumber]

/-- Both encodings go on after the number with something else than a digit. -/
theorem exists_text_verbose (encoding : Encoding) (v : Cell) : ∃ rest : List Char,
    (∀ c ∈ rest.head?, ¬ c.isDigit) ∧
      ∀ n, text encoding true ⟨n, v⟩ = mark encoding ++ Numeral.digits n ++ rest := by
  cases encoding with
  | human =>
    refine ⟨':' :: ' ' :: columns v, ?_, fun n => ?_⟩
    · intro c hc
      cases hc
      decide
    · simp [text, human, mark]
  | json =>
    refine ⟨',' :: (text .json false ⟨0, v⟩).tail, ?_, fun n => ?_⟩
    · intro c hc
      cases hc
      decide
    · rw [← withNumber_text .json 0 n v, withNumber]

theorem number_text (encoding : Encoding) (n : Nat) (v : Cell) :
    Numeral.numberAfter (mark encoding) (text encoding true ⟨n, v⟩) = n := by
  obtain ⟨rest, hrest, h⟩ := exists_text_verbose encoding v
  rw [h, Numeral.numberAfter_digits hrest]

theorem advance_text (encoding : Encoding) (k n : Nat) (v : Cell) :
    Numeral.advanceAfter (mark encoding) k (text encoding true ⟨n, v⟩) =
      text encoding true ⟨n + k, v⟩ := by
  obtain ⟨rest, hrest, h⟩ := exists_text_verbose encoding v
  rw [h, Numeral.advanceAfter_digits hrest, h]

end Entry

end DateSpan

import DateSpan.Entry
import DateSpan.Proofs.Grammar.Writing
import DateSpan.Proofs.Stream.Lines
import DateSpan.Proofs.Text.Digits
import DateSpan.Proofs.Text.Utf8

/-!
# What entries look like

The line of an entry is one line. Its text has no control character but the tab between its two
columns (`isLineChar_of_mem_text`), so no line feed and no carriage return; for the JSON encoding
this holds of any value, since control characters are escaped (`isPlain_of_mem_write`).

A column has no tab either, so that the two are told apart at the only tab there is.
-/

namespace DateSpan

/-- The character is no control character. -/
def isPlain (c : Char) : Bool := 0x20 ≤ c.toNat

/-- A byte that stands for a control character is not in a text without them. -/
theorem not_mem_encode_of_isPlain {b : UInt8} {cs : List Char} (hb : b.toNat < 0x20)
    (h : ∀ c ∈ cs, isPlain c) : b ∉ Utf8.encode cs := by
  intro hmem
  have hcontrol : ∀ m : Fin 0x20, ¬ isPlain (Char.ofNat m) := by decide
  exact hcontrol ⟨b.toNat, hb⟩ (h _ (Utf8.mem_encode_of_lt (by omega) hmem))

/-! ## JSON -/

namespace Json

theorem isPlain_of_isDigit {c : Char} (h : c.isDigit) : isPlain c := by
  simp only [Char.isDigit, Bool.and_eq_true, decide_eq_true_eq] at h
  exact decide_eq_true (Nat.le_trans (by decide) h.1)

theorem isPlain_of_mem_hex {bytes : List UInt8} {c : Char} (h : c ∈ Hex.encode bytes) :
    isPlain c :=
  Hex.forall_mem_encode (P := fun d => isPlain d) (by decide) c h

theorem isPlain_of_mem_signed {n : Int} {c : Char} (h : c ∈ Numeral.signed n) : isPlain c := by
  have hnumeral := Numeral.isNumeral_of_mem_signed h
  rw [Numeral.isNumeral, Bool.or_eq_true, beq_iff_eq] at hnumeral
  rcases hnumeral with rfl | hdigit
  · rfl
  · exact isPlain_of_isDigit hdigit

/-- Whatever is a control character is escaped. -/
theorem isPlain_of_mem_escape {c d : Char} (h : d ∈ escape c) : isPlain d := by
  have hpair {e : Char} (he : isPlain e) (h : d ∈ ['\\', e]) : isPlain d := by
    rcases List.mem_cons.1 h with rfl | h
    · rfl
    · rwa [List.mem_singleton.1 h]
  rw [escape] at h
  -- The seven characters with an escape of their own.
  iterate 7
    split at h
    · exact hpair rfl h
  split at h
  · rcases List.mem_append.1 h with h | h
    · have hunit : ∀ e ∈ ['\\', 'u', '0', '0'], isPlain e := List.all_eq_true.1 rfl
      exact hunit d h
    · exact isPlain_of_mem_hex h
  · next hge =>
    rw [List.mem_singleton.1 h]
    exact decide_eq_true (Nat.not_lt.1 hge)

theorem isPlain_of_mem_quote {s : List Char} {c : Char} (h : c ∈ quote s) : isPlain c := by
  rw [quote, List.cons_append, List.mem_cons, List.mem_append, List.mem_singleton] at h
  rcases h with rfl | h | rfl
  · rfl
  · obtain ⟨d, -, hc⟩ := List.mem_flatMap.1 h
    exact isPlain_of_mem_escape hc
  · rfl

mutual

/-- **No value has a control character in its text.** -/
theorem isPlain_of_mem_write : (j : Json) → {c : Char} → c ∈ j.write → isPlain c
  | null, c, h => List.all_eq_true.1 (show ['n', 'u', 'l', 'l'].all isPlain from rfl) c h
  | boolean true, c, h => List.all_eq_true.1 (show ['t', 'r', 'u', 'e'].all isPlain from rfl) c h
  | boolean false, c, h =>
    List.all_eq_true.1 (show ['f', 'a', 'l', 's', 'e'].all isPlain from rfl) c h
  | number n, _, h => isPlain_of_mem_signed h
  | string s, _, h => isPlain_of_mem_quote h
  | object members, c, h => by
    rw [write, List.cons_append, List.mem_cons, List.mem_append, List.mem_singleton] at h
    rcases h with rfl | h | rfl
    · rfl
    · exact isPlain_of_mem_writeMembers members h
    · rfl

theorem isPlain_of_mem_writeMembers :
    (members : List (List Char × Json)) → {c : Char} → c ∈ writeMembers members → isPlain c
  | [], _, h => by cases h
  | [(key, value)], c, h => by
    rw [writeMembers, List.mem_append, List.mem_cons] at h
    rcases h with h | rfl | h
    · exact isPlain_of_mem_quote h
    · rfl
    · exact isPlain_of_mem_write value h
  | (key, value) :: next :: more, c, h => by
    rw [writeMembers, List.mem_append, List.mem_append, List.mem_cons, List.mem_cons] at h
    rcases h with (h | rfl | h) | rfl | h
    · exact isPlain_of_mem_quote h
    · rfl
    · exact isPlain_of_mem_write value h
    · rfl
    · exact isPlain_of_mem_writeMembers (next :: more) h

end

end Json

/-! ## Columns -/

theorem Grammar.isPlain_of_isRangeChar {c : Char} (h : isRangeChar c) : isPlain c := by
  have hmarks : ∀ d ∈ ['+', '-', 'T', ':', '.', 'Z', '*', '[', ']', ' ', 'O'], isPlain d :=
    List.all_eq_true.1 rfl
  simp only [isRangeChar, isDateChar, Bool.or_eq_true, List.contains_iff_mem] at h
  rcases h with (h | h) | h
  · exact Json.isPlain_of_isDigit h
  · exact hmarks c (List.mem_append_left ['*', '[', ']', ' ', 'O'] h)
  · exact hmarks c (List.mem_append_right ['+', '-', 'T', ':', '.', 'Z'] h)

namespace Cell

theorem isPlain_of_mem_nullWord {c : Char} (h : c ∈ nullWord.toList) : isPlain c := by
  have hword : ∀ d ∈ ['N', 'U', 'L', 'L'], isPlain d := List.all_eq_true.1 rfl
  exact hword c h

theorem isPlain_of_mem_text {v : Cell} {c : Char} (h : c ∈ v.text.toList) : isPlain c := by
  rcases v with _ | r
  · exact isPlain_of_mem_nullWord h
  · rw [text, show toString r = String.ofList r.text from rfl, String.toList_ofList] at h
    exact Grammar.isPlain_of_isRangeChar (Range.isRangeChar_of_mem_text h)

/-- The second column: the digits of the bytes, or the null word. -/
def digits (v : Cell) : List Char := (Entry.hex? v).getD nullWord.toList

theorem isPlain_of_mem_digits {v : Cell} {c : Char} (h : c ∈ v.digits) : isPlain c := by
  rcases v with _ | r
  · exact isPlain_of_mem_nullWord h
  · exact Json.isPlain_of_mem_hex h

theorem not_mem_encode_text {b : UInt8} (hb : b.toNat < 0x20) (v : Cell) :
    b ∉ Utf8.encode v.text.toList :=
  not_mem_encode_of_isPlain hb fun _ => isPlain_of_mem_text

theorem not_mem_encode_digits {b : UInt8} (hb : b.toNat < 0x20) (v : Cell) :
    b ∉ Utf8.encode v.digits :=
  not_mem_encode_of_isPlain hb fun _ => isPlain_of_mem_digits

end Cell

namespace Entry

theorem columns_eq (v : Cell) : columns v = v.text.toList ++ '\t' :: v.digits := rfl

/-! ## Lines -/

/-- The characters of lines that are put out. -/
def isLineChar (c : Char) : Bool := c == '\t' || isPlain c

theorem isLineChar_of_isPlain {c : Char} (h : isPlain c) : isLineChar c := by
  rw [isLineChar, h, Bool.or_true]

theorem isLineChar_of_mem_columns {v : Cell} {c : Char} (h : c ∈ columns v) : isLineChar c := by
  rw [columns_eq, List.mem_append, List.mem_cons] at h
  rcases h with h | rfl | h
  · exact isLineChar_of_isPlain (Cell.isPlain_of_mem_text h)
  · rfl
  · exact isLineChar_of_isPlain (Cell.isPlain_of_mem_digits h)

/-- **The text of an entry has no control character but tabs**, whatever the options. -/
theorem isLineChar_of_mem_text {encoding : Encoding} {verbose : Bool} {e : Entry} {c : Char}
    (h : c ∈ e.text encoding verbose) : isLineChar c := by
  cases encoding with
  | human =>
    rw [text, human] at h
    cases verbose with
    | false => exact isLineChar_of_mem_columns h
    | true =>
      rw [if_pos rfl, List.mem_append, List.mem_append] at h
      rcases h with (h | h) | h
      · exact isLineChar_of_isPlain (Json.isPlain_of_isDigit (Numeral.isDigit_of_mem_digits h))
      · have hmarks : ∀ d ∈ [':', ' '], isLineChar d := List.all_eq_true.1 rfl
        exact hmarks c h
      · exact isLineChar_of_mem_columns h
  | json => exact isLineChar_of_isPlain (Json.isPlain_of_mem_write _ h)

/-- A byte that stands for another control character is not in the line of an entry. -/
theorem not_mem_encode_text {encoding : Encoding} {verbose : Bool} {e : Entry} {b : UInt8}
    (hb : b.toNat < 0x80) (hchar : isLineChar (Char.ofNat b.toNat) = false) :
    b ∉ Utf8.encode (e.text encoding verbose) := by
  intro h
  have hline := isLineChar_of_mem_text (Utf8.mem_encode_of_lt hb h)
  rw [hchar] at hline
  cases hline

theorem lineFeed_not_mem_text {encoding : Encoding} {verbose : Bool} {e : Entry} :
    Stream.lineFeed ∉ Utf8.encode (e.text encoding verbose) :=
  not_mem_encode_text (by decide) (by decide)

theorem flatMap_line (encoding : Encoding) (verbose : Bool) (es : List Entry) :
    es.flatMap (line encoding verbose) =
      Stream.unlines (es.map fun e => Utf8.encode (e.text encoding verbose)) := by
  rw [Stream.unlines, List.flatMap_map]
  rfl

/-- **Each entry is one line of the output.** -/
theorem ended_flatMap_line (encoding : Encoding) (verbose : Bool) (es : List Entry) :
    Stream.ended Stream.lineFeed (es.flatMap (line encoding verbose)) =
        es.map (fun e => Utf8.encode (e.text encoding verbose)) ∧
      Stream.unended Stream.lineFeed (es.flatMap (line encoding verbose)) = [] := by
  have hlines : ∀ l ∈ es.map (fun e => Utf8.encode (e.text encoding verbose)),
      Stream.lineFeed ∉ l := by
    intro l hl
    obtain ⟨e, -, rfl⟩ := List.mem_map.1 hl
    exact lineFeed_not_mem_text
  rw [flatMap_line]
  exact Stream.ended_flatMap hlines

end Entry

end DateSpan

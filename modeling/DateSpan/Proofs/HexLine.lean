import DateSpan.Proofs.LineForm
import DateSpan.Proofs.Text.Hex
import DateSpan.Proofs.Text.Utf8.Canonical

/-!
# Lines of digits

A line of digits must be a text. It is either the null word or digits with white space around them,
whose bytes are a cell (`decode_hex_eq_ok_iff`). White space around a line makes no difference
(`decode_hex_padded`), but the null word must stand alone (`decode_hex_padded_null`).
-/

namespace DateSpan

/-! ## Trimming -/

namespace Blank

/-- The first text is the second one with white space around it. -/
def Padded (cs ds : List Char) : Prop :=
  ∃ before after, cs = before ++ ds ++ after ∧ (∀ c ∈ before, isBlank c) ∧ ∀ c ∈ after, isBlank c

/-- Nothing but white space is trimmed. -/
theorem padded_trim (cs : List Char) : Padded cs (trim cs) := by
  obtain ⟨before, hcs, hbefore⟩ := Text.exists_append_dropWhile isBlank cs
  obtain ⟨after, hrev, hafter⟩ := Text.exists_append_dropWhile isBlank (trimStart cs).reverse
  refine ⟨before, after.reverse, ?_, hbefore, fun c hc => hafter c (List.mem_reverse.1 hc)⟩
  have htrim : trim cs ++ after.reverse = trimStart cs := by
    rw [trim, trimEnd, ← List.reverse_append, trimStart, ← hrev, List.reverse_reverse]
  rw [List.append_assoc, htrim]
  exact hcs

theorem trimStart_append {before cs : List Char} (h : ∀ c ∈ before, isBlank c) :
    trimStart (before ++ cs) = trimStart cs := by
  rw [trimStart, List.dropWhile_append_of_pos h, trimStart]

theorem trimEnd_append {cs after : List Char} (h : ∀ c ∈ after, isBlank c) :
    trimEnd (cs ++ after) = trimEnd cs := by
  rw [trimEnd, List.reverse_append, trimStart_append fun c hc => h c (List.mem_reverse.1 hc),
    trimEnd]

/-- What is left does not depend on the white space there was. -/
theorem trim_eq_of_padded {cs ds : List Char} (h : Padded cs ds) : trim cs = trim ds := by
  obtain ⟨before, after, rfl, hbefore, hafter⟩ := h
  rw [trim, List.append_assoc, trimStart_append hbefore, trim]
  rcases hds : trimStart ds with _ | ⟨d, rest⟩
  · -- The text is white space itself, so it is trimmed at the start with what comes after it.
    have hall : trimStart (after ++ []) = [] := trimStart_append hafter
    rw [List.append_nil] at hall
    rw [trimStart, List.dropWhile_append, ← trimStart, hds, List.isEmpty_nil, if_pos rfl,
      ← trimStart, hall]
  · rw [trimStart, List.dropWhile_append, ← trimStart, hds, List.isEmpty_cons, if_neg (by simp),
      trimEnd_append hafter]

end Blank

/-! ## The null word -/

namespace Cell

/-- The text is the null word, in letters of either case. -/
def IsNullWord (cs : List Char) : Prop := cs.map Char.toLower = ['n', 'u', 'l', 'l']

instance (cs : List Char) : Decidable (IsNullWord cs) :=
  inferInstanceAs (Decidable (cs.map Char.toLower = ['n', 'u', 'l', 'l']))

theorem sameName_nullWord_iff {cs : List Char} :
    Letter.sameName (String.ofList cs) nullWord ↔ IsNullWord cs := by
  rw [Letter.sameName_iff, String.toList_ofList]
  rfl

theorem IsNullWord.not_isBlank {cs : List Char} (h : IsNullWord cs) {c : Char} (hc : c ∈ cs) :
    ¬ Blank.isBlank c := by
  have hlow : c.toLower ∈ cs.map Char.toLower := List.mem_map_of_mem hc
  rw [h] at hlow
  simp only [List.mem_cons, List.not_mem_nil, or_false] at hlow
  rcases hlow with hlow | hlow | hlow | hlow
  · rcases @Letter.eq_or_eq_of_toLower_eq c 'n' 'N' rfl hlow with rfl | rfl <;> decide
  · rcases @Letter.eq_or_eq_of_toLower_eq c 'u' 'U' rfl hlow with rfl | rfl <;> decide
  · rcases @Letter.eq_or_eq_of_toLower_eq c 'l' 'L' rfl hlow with rfl | rfl <;> decide
  · rcases @Letter.eq_or_eq_of_toLower_eq c 'l' 'L' rfl hlow with rfl | rfl <;> decide

/-- The null word is no other text with white space around it. -/
theorem IsNullWord.eq_of_padded {cs ds : List Char} (h : IsNullWord cs)
    (hpadded : Blank.Padded cs ds) : cs = ds := by
  obtain ⟨before, after, rfl, hbefore, hafter⟩ := hpadded
  have hnil {part : List Char} (hblank : ∀ c ∈ part, Blank.isBlank c)
      (hpart : ∀ c ∈ part, c ∈ before ++ ds ++ after) : part = [] := by
    apply List.eq_nil_iff_forall_not_mem.2
    intro c hc
    exact h.not_isBlank (hpart c hc) (hblank c hc)
  rw [hnil hbefore (by simp +contextual), hnil hafter (by simp +contextual), List.nil_append,
    List.append_nil]

end Cell

/-! ## Lines -/

namespace LineForm

theorem decode_hex_of_isNullWord {cs : List Char} (h : Cell.IsNullWord cs) :
    hex.decode (Utf8.encode cs) = .ok none := by
  rw [decode, decodeHex, text_encode, ok_bind, if_pos (Cell.sameName_nullWord_iff.2 h)]

/-- What a text says that is not the null word. -/
def decodeDigits (cs : List Char) : Except Error Cell :=
  match Hex.decode cs with
  | some bytes => Cell.deserialize (some bytes)
  | none => .error (.other (.malformedHex (String.ofList cs)))

theorem decode_hex_of_not_isNullWord {cs : List Char} (h : ¬ Cell.IsNullWord cs) :
    hex.decode (Utf8.encode cs) = decodeDigits (Blank.trim cs) := by
  rw [decode, decodeHex, text_encode, ok_bind, if_neg (mt Cell.sameName_nullWord_iff.1 h)]
  rfl

theorem decodeDigits_eq_ok_iff {cs : List Char} {v : Cell} :
    decodeDigits cs = .ok v ↔
      ∃ bytes, Hex.decode cs = some bytes ∧ Cell.deserialize (some bytes) = .ok v := by
  rw [decodeDigits]
  cases Hex.decode cs <;> simp

theorem text_eq_ok_iff {line : List UInt8} {cs : List Char} :
    text line = .ok cs ↔ line = Utf8.encode cs := by
  rw [← Utf8.decode_eq_ok_iff, text]
  cases Utf8.decode line <;> simp

/-- A line that is no text is refused as that. -/
theorem decode_hex_of_forall_ne {line : List UInt8} (h : ∀ cs, line ≠ Utf8.encode cs) :
    ∃ fault, hex.decode line = .error (.other (.notUtf8 fault)) := by
  rcases hdecode : Utf8.decode line with fault | cs
  · refine ⟨fault, ?_⟩
    rw [decode, decodeHex, text, hdecode, error_bind]
  · exact absurd (Utf8.decode_eq_ok_iff.1 hdecode) (h cs)

theorem not_isNullWord_of_decode {cs : List Char} {bytes : List UInt8}
    (h : Hex.decode cs = some bytes) : ¬ Cell.IsNullWord cs := by
  intro hnull
  have hmem : 'n' ∈ Hex.encode bytes := by
    rw [← Hex.decode_eq_some_iff.1 h, hnull]
    exact List.mem_cons_self
  exact Hex.forall_mem_encode (P := fun c => c ≠ 'n') (by decide) 'n' hmem rfl

theorem trim_of_decode {cs : List Char} {bytes : List UInt8} (h : Hex.decode cs = some bytes) :
    Blank.trim cs = cs := by
  have hblank : ∀ c ∈ Hex.digits, !Blank.isBlank c := List.all_eq_true.1 rfl
  apply Blank.trim_of_not_isBlank
  intro c hc
  simpa using hblank c ((Hex.exists_decode_eq_some_iff.1 ⟨bytes, h⟩).2 c hc)

/-- **The lines that are accepted**, and what they say. -/
theorem decode_hex_eq_ok_iff {line : List UInt8} {v : Cell} :
    hex.decode line = .ok v ↔ ∃ cs, line = Utf8.encode cs ∧
      ((Cell.IsNullWord cs ∧ v = none) ∨
        ∃ ds bytes, Blank.Padded cs ds ∧ Hex.decode ds = some bytes ∧
          Cell.deserialize (some bytes) = .ok v) := by
  constructor
  · intro h
    obtain ⟨cs, htext, -⟩ := bind_eq_ok_iff.1 h
    obtain rfl := text_eq_ok_iff.1 htext
    refine ⟨cs, rfl, ?_⟩
    by_cases hnull : Cell.IsNullWord cs
    · rw [decode_hex_of_isNullWord hnull] at h
      exact .inl ⟨hnull, (Except.ok.inj h).symm⟩
    · rw [decode_hex_of_not_isNullWord hnull] at h
      obtain ⟨bytes, hbytes, hv⟩ := decodeDigits_eq_ok_iff.1 h
      exact .inr ⟨_, bytes, Blank.padded_trim cs, hbytes, hv⟩
  · rintro ⟨cs, rfl, ⟨hnull, rfl⟩ | ⟨ds, bytes, hpadded, hbytes, hv⟩⟩
    · exact decode_hex_of_isNullWord hnull
    · have hnull : ¬ Cell.IsNullWord cs := by
        intro hnull
        rw [← hnull.eq_of_padded hpadded] at hbytes
        exact not_isNullWord_of_decode hbytes hnull
      rw [decode_hex_of_not_isNullWord hnull, Blank.trim_eq_of_padded hpadded,
        trim_of_decode hbytes]
      exact decodeDigits_eq_ok_iff.2 ⟨bytes, hbytes, hv⟩

/-! ## White space around a line -/

theorem decode_hex_padded {cs ds : List Char} (h : Blank.Padded cs ds)
    (hnull : ¬ Cell.IsNullWord ds) :
    hex.decode (Utf8.encode cs) = hex.decode (Utf8.encode ds) := by
  have hnull' : ¬ Cell.IsNullWord cs := by
    intro hcs
    exact hnull (hcs.eq_of_padded h ▸ hcs)
  rw [decode_hex_of_not_isNullWord hnull', decode_hex_of_not_isNullWord hnull,
    Blank.trim_eq_of_padded h]

/-- The null word is refused as digits if it does not stand alone. -/
theorem decode_hex_padded_null {cs ds : List Char} (h : Blank.Padded cs ds) (hne : cs ≠ ds)
    (hnull : Cell.IsNullWord ds) :
    hex.decode (Utf8.encode cs) = .error (.other (.malformedHex (String.ofList ds))) := by
  have hnull' : ¬ Cell.IsNullWord cs := fun hcs => hne (hcs.eq_of_padded h)
  have htrim : Blank.trim ds = ds := (hnull.eq_of_padded (Blank.padded_trim ds)).symm
  have hdecode : Hex.decode ds = none := by
    apply Option.eq_none_iff_forall_ne_some.2
    intro bytes hbytes
    exact not_isNullWord_of_decode hbytes hnull
  rw [decode_hex_of_not_isNullWord hnull', Blank.trim_eq_of_padded h, htrim, decodeDigits, hdecode]

/-- A line that is no text does not become one. -/
theorem decode_hex_padded_of_forall_ne {before after : List Char} {line : List UInt8}
    (h : ∀ cs, line ≠ Utf8.encode cs) :
    ∃ fault, hex.decode (Utf8.encode before ++ line ++ Utf8.encode after) =
      .error (.other (.notUtf8 fault)) := by
  apply decode_hex_of_forall_ne
  intro cs hcs
  obtain ⟨ds, hds⟩ := Utf8.exists_encode_eq_append_iff.1 ⟨cs, hcs⟩
  exact h ds hds

end LineForm

/-! ## The digits of an entry -/

/-- The digits of an entry come after the only tab there is. -/
theorem Entry.human_eq (verbose : Bool) (e : Entry) :
    ∃ front, human verbose e = front ++ '\t' :: e.cell.digits ∧ '\t' ∉ front ∧
      '\t' ∉ e.cell.digits := by
  have hplain : ¬ isPlain '\t' := by decide
  have htext : '\t' ∉ e.cell.text.toList := fun h => hplain (Cell.isPlain_of_mem_text h)
  have hdigits : '\t' ∉ e.cell.digits := fun h => hplain (Cell.isPlain_of_mem_digits h)
  cases verbose with
  | false => exact ⟨_, columns_eq e.cell, htext, hdigits⟩
  | true =>
    refine ⟨Numeral.digits e.lineNumber ++ [':', ' '] ++ e.cell.text.toList, ?_, ?_, hdigits⟩
    · rw [human, if_pos rfl, columns_eq, ← List.append_assoc]
    · have hnumber : '\t' ∉ Numeral.digits e.lineNumber :=
        fun h => hplain (Json.isPlain_of_isDigit (Numeral.isDigit_of_mem_digits h))
      simp [hnumber, htext]

namespace LineForm

/-- **What lines of digits are read as.** A line is accepted exactly if it is a text, and this is
either the null word in letters of either case, or digits with white space around them whose bytes
are a cell; then that is the cell. Digits, in letters of either case and an even number of them,
always have bytes, and nothing else has; none at all are the null value. White space around a line
changes nothing, unless the line is the null word, which is refused then; and it does not make a
text of a line that is none. Bytes are read back from the digits they are written with, and digits
that were read are written again in lower case. The second column of an entry is read as its
cell. -/
theorem hex_lines_read :
    (∀ line v, hex.decode line = .ok v ↔ ∃ cs, line = Utf8.encode cs ∧
      ((Cell.IsNullWord cs ∧ v = none) ∨
        ∃ ds bytes, Blank.Padded cs ds ∧ Hex.decode ds = some bytes ∧
          Cell.deserialize (some bytes) = .ok v)) ∧
    (∀ cs, (∃ bytes, Hex.decode cs = some bytes) ↔
      cs.length % 2 = 0 ∧ ∀ c ∈ cs, c ∈ Hex.digits) ∧
    hex.decode [] = .ok none ∧
    (∀ cs ds, Blank.Padded cs ds → ¬ Cell.IsNullWord ds →
      hex.decode (Utf8.encode cs) = hex.decode (Utf8.encode ds)) ∧
    (∀ cs ds, Blank.Padded cs ds → Cell.IsNullWord ds → cs ≠ ds →
      hex.decode (Utf8.encode cs) = .error (.other (.malformedHex (String.ofList ds)))) ∧
    (∀ before after line, (∀ cs, line ≠ Utf8.encode cs) →
      (∃ fault, hex.decode line = .error (.other (.notUtf8 fault))) ∧
      ∃ fault, hex.decode (Utf8.encode before ++ line ++ Utf8.encode after) =
        .error (.other (.notUtf8 fault))) ∧
    (∀ bytes, Hex.decode (Hex.encode bytes) = some bytes) ∧
    (∀ cs bytes, Hex.decode cs = some bytes → Hex.encode bytes = cs.map Char.toLower) ∧
    (∀ verbose e, ∃ front column, Entry.human verbose e = front ++ '\t' :: column ∧
      '\t' ∉ front ∧ '\t' ∉ column ∧ hex.decode (Utf8.encode column) = .ok e.cell) := by
  refine ⟨fun line v => decode_hex_eq_ok_iff, fun cs => Hex.exists_decode_eq_some_iff, ?_,
    fun cs ds => decode_hex_padded, fun cs ds h hnull hne => decode_hex_padded_null h hne hnull,
    fun before after line h => ⟨decode_hex_of_forall_ne h, decode_hex_padded_of_forall_ne h⟩,
    Hex.decode_encode, fun cs bytes h => (Hex.decode_eq_some_iff.1 h).symm, ?_⟩
  · exact @decode_hex_of_not_isNullWord [] (by decide)
  · intro verbose e
    obtain ⟨front, hline, hfront, hdigits⟩ := Entry.human_eq verbose e
    exact ⟨front, e.cell.digits, hline, hfront, hdigits, decode_digits e.cell⟩

/-- A wide blank around the digits of the open range, a blank before the null word, and a byte that
is in no text. -/
theorem hex_lines_read_padded :
    hex.decode (Utf8.encode ['0', '5', '\u3000']) = .ok (some (.single .unbounded)) ∧
      hex.decode (Utf8.encode [' ', 'n', 'u', 'L', 'L']) =
        .error (.other (.malformedHex "nuLL")) ∧
      (∃ fault, hex.decode [0xFF] = .error (.other (.notUtf8 fault))) ∧
      Hex.encode [0xAB] = ['a', 'b'] := by
  obtain ⟨haccepted, -, -, hpadded, hnull, hother, -, hlower, -⟩ := hex_lines_read
  have hblank : Blank.Padded ['0', '5', '\u3000'] ['0', '5'] :=
    ⟨[], ['\u3000'], rfl, List.all_eq_true.1 rfl, List.all_eq_true.1 rfl⟩
  have hblank' : Blank.Padded [' ', 'n', 'u', 'L', 'L'] ['n', 'u', 'L', 'L'] :=
    ⟨[' '], [], rfl, List.all_eq_true.1 rfl, List.all_eq_true.1 rfl⟩
  have hself : Blank.Padded ['0', '5'] ['0', '5'] :=
    ⟨[], [], rfl, List.all_eq_true.1 rfl, List.all_eq_true.1 rfl⟩
  refine ⟨?_, hnull _ _ hblank' (by decide) (by decide), (hother [] [] _ ?_).1,
    hlower ['A', 'b'] _ (by decide)⟩
  · rw [hpadded _ _ hblank (by decide)]
    exact (haccepted _ _).2 ⟨_, rfl, .inr ⟨_, [5], hself, by decide, by decide⟩⟩
  · intro cs hcs
    have hdecode := Utf8.decode_encode cs
    rw [← hcs, Utf8.decode, Utf8.pieces] at hdecode
    cases hdecode

end LineForm

end DateSpan

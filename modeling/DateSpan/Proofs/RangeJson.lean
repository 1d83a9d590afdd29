import DateSpan.Proofs.Json.Spelling
import DateSpan.Proofs.RoundTrip.Text
import DateSpan.Range.Json

/-!
# Reading a range from JSON is reading its text

A document is read as the range of the text that it spells, with the error of that text if it is
none (`ofJson_of_isText`), and no other document is a range (`exists_isText_of_ofJson`). How the
text is spelled does not matter.
-/

namespace DateSpan

namespace Json

/-- The document is one string literal, which spells the text, and white space around it. -/
def IsText (document text : String) : Prop :=
  ∃ before spelled after, document.toList = before ++ '"' :: (spelled ++ '"' :: after) ∧
    (∀ c ∈ before, isBlank c) ∧ Spells text.toList spelled ∧ ∀ c ∈ after, isBlank c

theorem skipBlank_append {before : List Char} (h : ∀ c ∈ before, isBlank c) (rest : List Char) :
    skipBlank (before ++ '"' :: rest) = '"' :: rest := by
  rw [skipBlank, List.dropWhile_append_of_pos h, List.dropWhile_cons_of_neg (by decide)]

theorem isEnd_iff {cs : List Char} : isEnd cs ↔ ∀ c ∈ cs, isBlank c := by
  rw [isEnd, List.isEmpty_iff]
  constructor
  · intro h
    obtain ⟨before, hcs, hbefore⟩ := Text.exists_append_dropWhile isBlank cs
    rw [← skipBlank, h, List.append_nil] at hcs
    rwa [hcs]
  · intro h
    rw [skipBlank, ← List.append_nil cs, List.dropWhile_append_of_pos h]
    rfl

/-- The string that a document begins with, and what comes after it. -/
theorem readText_eq_ok_iff {document : String} {s after : List Char} :
    readText document = .ok (s, after) ↔ ∃ before spelled,
      document.toList = before ++ '"' :: (spelled ++ '"' :: after) ∧
        (∀ c ∈ before, isBlank c) ∧ Spells s spelled := by
  constructor
  · intro h
    rw [readText] at h
    obtain ⟨before, hdocument, hbefore⟩ := Text.exists_append_dropWhile isBlank document.toList
    split at h
    · next cs hcs =>
      obtain ⟨spelled, hs, rfl⟩ := readString_eq_ok_iff.1 h
      rw [← skipBlank, hcs] at hdocument
      exact ⟨before, spelled, hdocument, hbefore, hs⟩
    · cases h
  · rintro ⟨before, spelled, hdocument, hbefore, hs⟩
    rw [readText, hdocument, skipBlank_append hbefore]
    exact readString_append hs after

theorem isText_iff {document text : String} :
    IsText document text ↔ ∃ after, readText document = .ok (text.toList, after) ∧ isEnd after := by
  simp only [readText_eq_ok_iff, isEnd_iff]
  constructor
  · rintro ⟨before, spelled, after, hdocument, hbefore, hs, hafter⟩
    exact ⟨after, ⟨before, spelled, hdocument, hbefore, hs⟩, hafter⟩
  · rintro ⟨after, ⟨before, spelled, hdocument, hbefore, hs⟩, hafter⟩
    exact ⟨before, spelled, after, hdocument, hbefore, hs, hafter⟩

/-- A document spells one text at most. -/
theorem IsText.unique {document text text' : String} (h : IsText document text)
    (h' : IsText document text') : text = text' := by
  obtain ⟨after, hread, -⟩ := isText_iff.1 h
  obtain ⟨after', hread', -⟩ := isText_iff.1 h'
  rw [hread] at hread'
  exact String.toList_inj.1 (Prod.mk.inj (Except.ok.inj hread')).1

theorem isText_quote (text : String) : IsText (String.ofList (quote text.toList)) text := by
  refine ⟨[], text.toList.flatMap escape, [], ?_, by simp, spells_flatMap_escape _, by simp⟩
  rw [String.toList_ofList, quote]
  rfl

end Json

namespace Range

theorem ofJson_of_isText {document text : String} (h : Json.IsText document text) :
    ofJson document = (parse text).mapError .range := by
  obtain ⟨after, hread, hend⟩ := Json.isText_iff.1 h
  rw [ofJson, hread]
  dsimp only
  rw [String.ofList_toList]
  cases parse text with
  | error e => rfl
  | ok r => exact if_pos hend

/-- A range is read from its text only. -/
theorem exists_isText_of_ofJson {document : String} {r : Range} (h : ofJson document = .ok r) :
    ∃ text, Json.IsText document text := by
  rw [ofJson] at h
  split at h
  · cases h
  · next cs after hread =>
    split at h
    · cases h
    · split at h
      · next hend =>
        rw [← String.toList_ofList (l := cs)] at hread
        exact ⟨String.ofList cs, Json.isText_iff.2 ⟨after, hread, hend⟩⟩
      · cases h

theorem ofJson_of_forall_not {document : String} (h : ∀ text, ¬ Json.IsText document text) :
    ∃ fault, ofJson document = .error fault := by
  rcases hread : ofJson document with fault | r
  · exact ⟨fault, rfl⟩
  · obtain ⟨text, htext⟩ := exists_isText_of_ofJson hread
    exact absurd htext (h text)

theorem ofJson_write (r : Range) :
    ofJson (String.ofList r.toJson.write) = (parse (toString r)).mapError .range := by
  have hwrite : r.toJson.write = Json.quote (toString r).toList := by
    rw [show toString r = String.ofList r.text from rfl, String.toList_ofList, toJson, Json.write]
  rw [hwrite]
  exact ofJson_of_isText (Json.isText_quote (toString r))

/-- **Reading a range from JSON is reading its text.** A document that is one string literal,
however its text is spelled and whatever white space is around it, is read as the range of this
text, or refused with the error that the text is refused with. Every other document is refused,
also one that begins with a literal and goes on with more than white space. A document spells one
text at most, and each text has a document. So a range that is put into JSON is read back as it is
from its text. -/
theorem json_read_as_text :
    (∀ document text, Json.IsText document text →
      ofJson document = (parse text).mapError .range ∧
      ∀ e, parse text = .error e →
        ∃ fault, ofJson document = .error fault ∧ fault.message = e.describe) ∧
    (∀ document, (∀ text, ¬ Json.IsText document text) → ∃ fault, ofJson document = .error fault) ∧
    (∀ document before s spelled after,
      document.toList = before ++ '"' :: (spelled ++ '"' :: after) →
      (∀ c ∈ before, Json.isBlank c) → Json.Spells s spelled → (∃ c ∈ after, ¬ Json.isBlank c) →
        ∃ fault, ofJson document = .error fault) ∧
    (∀ document text text', Json.IsText document text → Json.IsText document text' →
      text = text') ∧
    (∀ text, Json.IsText (String.ofList (Json.quote text.toList)) text) ∧
    (∀ r : Range, ofJson (String.ofList r.toJson.write) = (parse (toString r)).mapError .range ∧
      ofJson (String.ofList r.toJson.write) = .ok r.settle) := by
  refine ⟨?_, fun document => ofJson_of_forall_not, ?_,
    fun document text text' => Json.IsText.unique, Json.isText_quote, ?_⟩
  · intro document text h
    have hread := ofJson_of_isText h
    refine ⟨hread, ?_⟩
    intro e he
    rw [he] at hread
    exact ⟨.range e, hread, rfl⟩
  · rintro document before s spelled after hdocument hbefore hs ⟨c, hc, hblank⟩
    apply ofJson_of_forall_not
    intro text htext
    -- What comes after the literal is the same for all readings.
    obtain ⟨after', hread, hend⟩ := Json.isText_iff.1 htext
    rw [Json.readText_eq_ok_iff.2 ⟨before, spelled, hdocument, hbefore, hs⟩] at hread
    obtain rfl := (Prod.mk.inj (Except.ok.inj hread)).2
    exact hblank (Json.isEnd_iff.1 hend c hc)
  · intro r
    have hwrite := ofJson_write r
    refine ⟨hwrite, ?_⟩
    rw [hwrite, parse_toString]
    rfl

/-- An open range that is escaped, a character that is escaped as two surrogates, an open range with
a bracket after it, and one without quotes. -/
theorem json_read_as_text_escaped :
    ofJson "\t\"\\u002A\" " = .ok (.single .unbounded) ∧
      (∃ fault, ofJson "\"\\ud83d\\ude00\"" = .error fault ∧
        fault.message = (Error.grammar "😀" 0 (.unmatchedBound "😀")).describe) ∧
      (∃ fault, ofJson "\"*\"]" = .error fault) ∧ ∃ fault, ofJson "*" = .error fault := by
  obtain ⟨hread, hother, hmore, -⟩ := json_read_as_text
  have hstar : Json.IsText "\t\"\\u002A\" " "*" := by
    refine ⟨['\t'], ['\\', 'u', '0', '0', '2', 'A'], [' '], rfl, List.all_eq_true.1 rfl, ?_,
      List.all_eq_true.1 rfl⟩
    exact .cons (@Json.SpellsChar.unit '*' ['0', '0', '2', 'A'] ⟨by decide, rfl⟩) .nil
  have hpair : Json.IsText "\"\\ud83d\\ude00\"" "😀" := by
    refine ⟨[], ['\\', 'u', 'd', '8', '3', 'd', '\\', 'u', 'd', 'e', '0', '0'], [], rfl,
      List.all_eq_true.1 rfl, ?_, List.all_eq_true.1 rfl⟩
    exact .cons (@Json.SpellsChar.pair '😀' ['d', '8', '3', 'd'] ['d', 'e', '0', '0']
      (by decide) ⟨by decide, rfl⟩ ⟨by decide, rfl⟩) .nil
  have hraw : Json.Spells ['*'] ['*'] := .cons (.raw (by decide) (by decide) (by decide)) .nil
  refine ⟨(hread _ _ hstar).1, (hread _ _ hpair).2 _ rfl, ?_, hother _ ?_⟩
  · exact hmore _ [] _ _ [']'] rfl (List.all_eq_true.1 rfl) hraw ⟨']', by decide⟩
  · intro text htext
    obtain ⟨_, hread, -⟩ := Json.isText_iff.1 htext
    cases hread

end Range

end DateSpan

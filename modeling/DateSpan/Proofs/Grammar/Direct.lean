import DateSpan.Range.Text

/-!
# What reading a range comes down to

`Range.reader` is put together from readers, and each of them may stop. Most of the places where
they might are never reached, because the text has been looked at before: there is the bracket that
the first one is to take, there are as many characters as the second one takes, the separator is
where the reader before it has stopped, and the closing bracket is what it has left.

So a range is read by looking at the ends of the text and cutting it at the separator, with no
spans and no readers (`parseDirect`). `parse_eq` says that this is the same for each text, down to
the error and its offset.
-/

namespace DateSpan.Range

/-- Reads a bound within a text, where it begins at the given offset. -/
def parseBound (source : String) (offset : Nat) (edge : Edge) (cs : List Char) :
    Except Error Bound :=
  match Bound.parse edge (String.ofList cs) with
  | .ok bound => .ok bound
  | .error _ => .error (.grammar source offset (.unmatchedBound (String.ofList cs)))

/-- Reads the text after an opening bracket. -/
def parseBrackets (source : String) (inner : List Char) : Except Error Range :=
  if inner.getLast? ≠ some ']' then .error (.grammar source 0 .missingBracket)
  else
    match Text.cut? separator inner.dropLast with
    | none => .error (.grammar source 0 .missingSeparator)
    | some (before, after) => do
      let lower ← parseBound source 1 .lower before
      let upper ← parseBound source (1 + Utf8.size before + separator.length) .upper after
      ofBounds lower upper

/-- Reads two bounds if the text begins with a bracket, and otherwise one. -/
def parseDirect (source : String) : Except Error Range :=
  match source.toList with
  | '[' :: inner => parseBrackets source inner
  | cs => return single (← parseBound source 0 .lower cs)

/-! ## Bounds -/

section
variable {edge : Edge} {cs : List Char} {b : Bound} {e : Error}

theorem readBound_of_ok (h : Bound.parse edge (String.ofList cs) = .ok b) (offset : Nat) :
    readBound edge ⟨offset, cs⟩ = .ok (Span.drop cs.length ⟨offset, cs⟩, b) := by
  rw [readBound, Reader.rest, ok_bind]
  simp only [h]

theorem readBound_of_error (h : Bound.parse edge (String.ofList cs) = .error e) (offset : Nat) :
    readBound edge ⟨offset, cs⟩ =
      .error (.failure (.fault ⟨offset, cs⟩ (.unmatchedBound (String.ofList cs)))) := by
  rw [readBound, Reader.rest, ok_bind]
  simp only [h]

theorem parseBound_of_ok (h : Bound.parse edge (String.ofList cs) = .ok b) (source : String)
    (offset : Nat) : parseBound source offset edge cs = .ok b := by
  simp only [parseBound, h]

theorem parseBound_of_error (h : Bound.parse edge (String.ofList cs) = .error e)
    (source : String) (offset : Nat) :
    parseBound source offset edge cs =
      .error (.grammar source offset (.unmatchedBound (String.ofList cs))) := by
  simp only [parseBound, h]

end

/-! ## Ranges -/

/-- None of the readers within the brackets stops but those of the two bounds. -/
theorem outcome_readBrackets (source : String) (inner : List Char) :
    Reader.outcome source (readBrackets ⟨0, '[' :: inner⟩) = parseBrackets source inner := by
  rw [readBrackets, parseBrackets, Reader.char_cons, ok_bind]
  dsimp only
  by_cases hlast : inner.getLast? = some ']'
  · obtain ⟨body, rfl⟩ := List.getLast?_eq_some_iff.1 hlast
    have hlength : (body ++ [']']).length - 1 = body.length := by simp
    rw [if_neg (not_not_intro hlast), if_neg (not_not_intro hlast), hlength, Reader.take_append,
      ok_bind, List.dropLast_concat]
    dsimp only
    rcases hcut : Text.cut? separator body with _ | ⟨before, after⟩
    · rw [Reader.takeUntil_of_cut?_eq_none hcut]
      rfl
    · rw [Reader.takeUntil_of_cut? hcut]
      dsimp only
      rw [Reader.tag_append, ok_bind]
      dsimp only
      rcases hl : Bound.parse .lower (String.ofList before) with e | l
      · rw [readBound_of_error hl, parseBound_of_error hl]
        rfl
      · rw [readBound_of_ok hl, parseBound_of_ok hl, ok_bind, ok_bind]
        dsimp only
        rcases hu : Bound.parse .upper (String.ofList after) with e | u
        · rw [readBound_of_error hu, parseBound_of_error hu]
          rfl
        · rw [readBound_of_ok hu, parseBound_of_ok hu, ok_bind, ok_bind]
          dsimp only
          rcases ofBounds l u with e | r
          · rfl
          · dsimp only
            rw [Reader.char_cons]
            rfl
  · rw [if_pos hlast, if_pos hlast]
    rfl

theorem outcome_readBound (source : String) (cs : List Char) :
    Reader.outcome source (do
      let (left, lower) ← readBound .lower ⟨0, cs⟩
      return (left, single lower)) = (do return single (← parseBound source 0 .lower cs)) := by
  rcases h : Bound.parse .lower (String.ofList cs) with e | b
  · rw [readBound_of_error h, parseBound_of_error h]
    rfl
  · rw [readBound_of_ok h, parseBound_of_ok h]
    rfl

/-- **Reading a range comes down to cutting its text.** No reader stops where it was not meant
to. -/
theorem parse_eq (source : String) : Range.parse source = parseDirect source := by
  rw [Range.parse, Reader.run, Span.ofText, reader, parseDirect]
  generalize source.toList = cs
  by_cases hstar : cs = Bound.openMark
  · -- The mark of an open range is read as a bound as well.
    have hopen : Bound.parse .lower (String.ofList Bound.openMark) = .ok .unbounded := by
      rw [Bound.parse, String.toList_ofList, if_pos rfl]
    rw [hstar, Reader.allConsuming_tag]
    show _ = parseBound source 0 .lower Bound.openMark >>= _
    rw [parseBound_of_ok hopen]
    rfl
  · obtain ⟨stop, hstop⟩ := Reader.allConsuming_tag_of_ne hstar 0
    rw [hstop]
    dsimp only
    split
    · next hhead =>
      obtain ⟨inner, rfl⟩ := List.head?_eq_some_iff.1 hhead
      exact outcome_readBrackets source inner
    · next hhead =>
      rw [outcome_readBound]
      split
      · exact absurd rfl hhead
      · rfl

end DateSpan.Range

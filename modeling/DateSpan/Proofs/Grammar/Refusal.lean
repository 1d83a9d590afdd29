import DateSpan.Proofs.Grammar.Acceptance

/-!
# Where a text is refused

A text that is no range may be wrong in several places, and the error names one of them. `Rejects`
says which, by looking at the text alone: the brackets come before the separator, the separator
before the bounds, the lower bound before the upper one, and the order of the bounds comes last.

    parse_eq_error_iff : Range.parse s = .error e ↔ Rejects s e

These are all the errors there are. The readers a range is read with have some of their own, for a
character that is not the one they take or a text that is too short, and no text leads to those
(`parse_ne_missing`).

Errors count the bytes in front of the fault. What is in front of it has been read by then, as a
bracket and a lower bound, and these are made of ASCII characters; so the bytes are characters
(`Rejects.isAsciiPlace`), whatever the rest of the text is made of.
-/

namespace DateSpan

open Grammar

/-! ## Characters and bytes -/

theorem Utf8.length_encode_of_ascii {cs : List Char} (h : ∀ c ∈ cs, c.toNat < 128) :
    (encode cs).length = cs.length := by
  induction cs with
  | nil => rfl
  | cons c cs ih =>
    have hone : c.utf8Size = 1 := by
      rw [Char.utf8Size_eq_one_iff, UInt32.le_iff_toNat_le]
      exact Nat.le_of_lt_succ (h c List.mem_cons_self)
    have hrest := ih fun d hd => h d (List.mem_cons_of_mem _ hd)
    rw [length_encode] at hrest ⊢
    rw [size, List.foldr_cons, hone, ← size, hrest, List.length_cons, Nat.add_comm]

/-- A place within a text, with nothing but ASCII characters in front of it: as many characters as
bytes. -/
def IsAsciiPlace (cs : List Char) (offset : Nat) : Prop :=
  ∃ before after, cs = before ++ after ∧ (∀ c ∈ before, c.toNat < 128) ∧
    before.length = offset ∧ (Utf8.encode before).length = offset

theorem isAsciiPlace_append {before : List Char} (after : List Char)
    (h : ∀ c ∈ before, c.toNat < 128) : IsAsciiPlace (before ++ after) before.length :=
  ⟨before, after, rfl, h, rfl, Utf8.length_encode_of_ascii h⟩

theorem IsAsciiPlace.le_length {cs : List Char} {offset : Nat} (h : IsAsciiPlace cs offset) :
    offset ≤ (Utf8.encode cs).length := by
  obtain ⟨before, after, rfl, -, -, hbytes⟩ := h
  rw [Utf8.encode, List.flatMap_append, List.length_append, ← Utf8.encode, hbytes]
  exact Nat.le_add_right _ _

/-! ## What is wrong with a text -/

namespace Grammar

/-- The grammar derives the text as a bound, and its date exists. -/
def IsBound (cs : List Char) : Prop := ∃ x : BoundTree, x.flatten = cs ∧ x.Valid

/-- The text is in brackets, and the first separator in there is between the two parts. -/
structure Splits (cs before after : List Char) : Prop where
  eq : cs = '[' :: (before ++ Range.separator ++ after ++ [']'])
  first : ∀ b a, before ++ Range.separator ++ after = b ++ Range.separator ++ a →
    before.length ≤ b.length

end Grammar

namespace Range

/-- The text is no range, for the reason that the error gives. -/
inductive Rejects (s : String) : Error → Prop
  /-- There is no bracket, so the text would have to be a bound. -/
  | bound : s.toList.head? ≠ some '[' → ¬ IsBound s.toList →
      Rejects s (.grammar s 0 (.unmatchedBound s))
  | bracket {inner} : s.toList = '[' :: inner → inner.getLast? ≠ some ']' →
      Rejects s (.grammar s 0 .missingBracket)
  | separator {inner} : s.toList = '[' :: (inner ++ [']']) → ¬ separator <:+: inner →
      Rejects s (.grammar s 0 .missingSeparator)
  /-- What the upper bound is like does not matter. -/
  | lower {before after} : Splits s.toList before after → ¬ IsBound before →
      Rejects s (.grammar s 1 (.unmatchedBound (String.ofList before)))
  | upper {before after} : Splits s.toList before after → IsBound before → ¬ IsBound after →
      Rejects s (.grammar s (5 + before.length) (.unmatchedBound (String.ofList after)))
  | inverted {x y : BoundTree} {l u : Moment} : Splits s.toList x.flatten y.flatten →
      x.Denotes .lower (.bounded l) → y.Denotes .upper (.bounded u) → u.instant < l.instant →
      Rejects s (.ordering (String.ofList l.text) (String.ofList u.text))

end Range

/-- Two bounds in brackets are split between them: no bound contains a separator. -/
theorem Grammar.splits_flatten (x y : BoundTree) :
    Splits (RangeTree.between x y).flatten x.flatten y.flatten :=
  ⟨rfl, ((Text.cut?_eq_some_iff (by decide)).1 (cut?_flatten x y.flatten)).2⟩

/-! ## Bounds -/

/-- Which texts are bounds does not depend on the edge. -/
theorem Bound.exists_parse_iff {edge : Edge} {cs : List Char} :
    (∃ b, Bound.parse edge (String.ofList cs) = .ok b) ↔ IsBound cs := by
  simp only [parse_eq_ok_iff, String.toList_ofList, IsBound, ← @BoundTree.exists_denotes_iff edge]
  constructor
  · intro h
    obtain ⟨b, x, hx, hb⟩ := h
    exact ⟨x, hx, b, hb⟩
  · intro h
    obtain ⟨x, hx, b, hb⟩ := h
    exact ⟨b, x, hx, hb⟩

theorem Grammar.toNat_lt_of_isRangeChar {c : Char} (h : isRangeChar c) : c.toNat < 128 := by
  have hmarks : ∀ c ∈ ['+', '-', 'T', ':', '.', 'Z', '*', '[', ']', ' ', 'O'],
      decide (c.toNat < 128) := List.all_eq_true.1 rfl
  rw [isRangeChar, isDateChar, Bool.or_eq_true, Bool.or_eq_true, List.contains_iff_mem,
    List.contains_iff_mem, or_assoc, ← List.mem_append] at h
  rcases h with hdigit | hmark
  · exact Nat.lt_of_le_of_lt (Char.isDigit_iff_toNat.1 hdigit).2 (by decide)
  · exact of_decide_eq_true (hmarks c hmark)

theorem Grammar.IsBound.ascii {cs : List Char} (h : IsBound cs) : ∀ c ∈ cs, c.toNat < 128 := by
  obtain ⟨x, rfl, -⟩ := h
  intro c hc
  exact toNat_lt_of_isRangeChar (x.isRangeChar_of_mem_flatten hc)

namespace Range

theorem parseBound_eq_error_iff {source : String} {offset : Nat} {edge : Edge} {cs : List Char}
    {e : Error} :
    parseBound source offset edge cs = .error e ↔
      ¬ IsBound cs ∧ e = .grammar source offset (.unmatchedBound (String.ofList cs)) := by
  rw [← @Bound.exists_parse_iff edge, parseBound]
  split
  · next b h => simp [h]
  · next h => simp [h, eq_comm]

theorem exists_parseBound_iff {source : String} {offset : Nat} {edge : Edge} {cs : List Char} :
    (∃ b, parseBound source offset edge cs = .ok b) ↔ IsBound cs := by
  simp only [parseBound_eq_ok_iff, ← @Bound.exists_parse_iff edge, Bound.parse_eq_ok_iff,
    String.toList_ofList]

/-! ## The reader, text by text -/

theorem parse_of_head? {s : String} (h : s.toList.head? ≠ some '[') :
    Range.parse s = parseBound s 0 .lower s.toList >>= fun b => .ok (single b) := by
  rw [parse_eq, parseDirect]
  split
  · next inner hs => exact absurd (by rw [hs]; rfl) h
  · rfl

theorem parse_of_cons {s : String} {inner : List Char} (h : s.toList = '[' :: inner) :
    Range.parse s = parseBrackets s inner := by
  rw [parse_eq, parseDirect, h]
  rfl

theorem parse_of_splits {s : String} {before after : List Char}
    (h : Splits s.toList before after) :
    Range.parse s = (do
      let lower ← parseBound s 1 .lower before
      let upper ← parseBound s (1 + Utf8.size before + separator.length) .upper after
      ofBounds lower upper) := by
  have hcut := (Text.cut?_eq_some_iff (by decide)).2 ⟨rfl, h.first⟩
  rw [parse_of_cons h.eq, parseBrackets, List.getLast?_concat, if_neg (by simp),
    List.dropLast_concat, hcut]

/-- Once both bounds are read, it is for their order to decide. -/
theorem parse_eq_ofBounds {s : String} {x y : BoundTree} {l u : Bound}
    (h : Splits s.toList x.flatten y.flatten) (hx : x.Denotes .lower l)
    (hy : y.Denotes .upper u) : Range.parse s = ofBounds l u := by
  rw [parse_of_splits h, parseBound_eq_ok_iff.2 ⟨x, rfl, hx⟩, ok_bind,
    parseBound_eq_ok_iff.2 ⟨y, rfl, hy⟩, ok_bind]

/-- Every text is of one of four forms. -/
theorem exists_form (cs : List Char) :
    cs.head? ≠ some '[' ∨
    (∃ inner, cs = '[' :: inner ∧ inner.getLast? ≠ some ']') ∨
    (∃ inner, cs = '[' :: (inner ++ [']']) ∧ ¬ separator <:+: inner) ∨
    (∃ before after, Splits cs before after) := by
  by_cases hhead : cs.head? = some '['
  · obtain ⟨inner, rfl⟩ := List.head?_eq_some_iff.1 hhead
    by_cases hlast : inner.getLast? = some ']'
    · obtain ⟨body, rfl⟩ := List.getLast?_eq_some_iff.1 hlast
      have hne : separator ≠ [] := by decide
      rcases hcut : Text.cut? separator body with _ | ⟨before, after⟩
      · exact .inr (.inr (.inl ⟨body, rfl, (Text.cut?_eq_none_iff hne).1 hcut⟩))
      · obtain ⟨rfl, hfirst⟩ := (Text.cut?_eq_some_iff hne).1 hcut
        exact .inr (.inr (.inr ⟨before, after, rfl, hfirst⟩))
    · exact .inr (.inl ⟨inner, rfl, hlast⟩)
  · exact .inl hhead

/-- Once the lower bound is read, bytes and characters in front of the upper one are the same. -/
theorem offset_upper {before : List Char} (h : IsBound before) :
    1 + Utf8.size before + separator.length = 5 + before.length := by
  rw [← Utf8.length_encode, Utf8.length_encode_of_ascii h.ascii,
    show separator.length = 4 from rfl]
  omega

theorem Rejects.parse_eq {s : String} {e : Error} (h : Rejects s e) :
    Range.parse s = .error e := by
  cases h with
  | bound hhead hbound =>
    have hread : parseBound s 0 .lower s.toList = .error (.grammar s 0 (.unmatchedBound s)) :=
      parseBound_eq_error_iff.2 ⟨hbound, by rw [String.ofList_toList]⟩
    rw [parse_of_head? hhead, hread, error_bind]
  | bracket hs hlast => rw [parse_of_cons hs, parseBrackets, if_pos hlast]
  | separator hs hno =>
    have hcut := (Text.cut?_eq_none_iff (by decide)).2 hno
    rw [parse_of_cons hs, parseBrackets, List.getLast?_concat, if_neg (by simp),
      List.dropLast_concat, hcut]
  | lower hsplits hbefore =>
    rw [parse_of_splits hsplits, parseBound_eq_error_iff.2 ⟨hbefore, rfl⟩, error_bind]
  | upper hsplits hbefore hafter =>
    obtain ⟨l, hl⟩ := exists_parseBound_iff.2 hbefore
    rw [parse_of_splits hsplits, hl, ok_bind,
      parseBound_eq_error_iff.2 ⟨hafter, rfl⟩, error_bind, offset_upper hbefore]
  | inverted hsplits hx hy hlt =>
    rw [parse_eq_ofBounds hsplits hx hy]
    exact ofBounds_eq_error_iff.2 ⟨_, _, rfl, rfl, hlt, rfl⟩

/-- **A text is refused for the first thing that is wrong with it.** -/
theorem parse_eq_error_iff {s : String} {e : Error} :
    Range.parse s = .error e ↔ Rejects s e := by
  refine ⟨?_, Rejects.parse_eq⟩
  intro h
  rcases exists_form s.toList with hhead | ⟨inner, hs, hlast⟩ | ⟨inner, hs, hno⟩ |
    ⟨before, after, hsplits⟩
  · rw [parse_of_head? hhead] at h
    rcases bind_eq_error_iff.1 h with hb | ⟨b, -, hb⟩
    · obtain ⟨hbound, rfl⟩ := parseBound_eq_error_iff.1 hb
      rw [String.ofList_toList]
      exact .bound hhead hbound
    · cases hb
  · rw [(Rejects.bracket hs hlast).parse_eq] at h
    cases h
    exact .bracket hs hlast
  · rw [(Rejects.separator hs hno).parse_eq] at h
    cases h
    exact .separator hs hno
  · rw [parse_of_splits hsplits] at h
    rcases bind_eq_error_iff.1 h with hl | ⟨l, hl, h⟩
    · obtain ⟨hbefore, rfl⟩ := parseBound_eq_error_iff.1 hl
      exact .lower hsplits hbefore
    · have hbefore : IsBound before := exists_parseBound_iff.1 ⟨l, hl⟩
      rcases bind_eq_error_iff.1 h with hu | ⟨u, hu, h⟩
      · obtain ⟨hafter, rfl⟩ := parseBound_eq_error_iff.1 hu
        rw [offset_upper hbefore]
        exact .upper hsplits hbefore hafter
      · obtain ⟨l, u, rfl, rfl, hlt, rfl⟩ := ofBounds_eq_error_iff.1 h
        obtain ⟨x, rfl, hx⟩ := parseBound_eq_ok_iff.1 hl
        obtain ⟨y, rfl, hy⟩ := parseBound_eq_ok_iff.1 hu
        exact .inverted hsplits hx hy hlt

/-- No text is refused for what one of the readers did not find in it, nor for want of input. -/
theorem parse_ne_missing (s text : String) (offset : Nat) :
    (∀ wanted, Range.parse s ≠ .error (.grammar text offset (.missing wanted))) ∧
      Range.parse s ≠ .error (.grammar text offset .endOfInput) := by
  constructor
  · intro wanted h
    cases parse_eq_error_iff.1 h
  · intro h
    cases parse_eq_error_iff.1 h

end Range

/-! ## The offset -/

namespace Grammar

variable {cs before after : List Char}

theorem Splits.isAsciiPlace_lower (h : Splits cs before after) : IsAsciiPlace cs 1 := by
  have hascii : ∀ c ∈ ['['], c.toNat < 128 := List.forall_mem_singleton.2 (by decide)
  rw [h.eq]
  exact isAsciiPlace_append _ hascii

/-- In front of the upper bound there are a bracket, the lower bound and the separator. -/
theorem Splits.isAsciiPlace_upper (h : Splits cs before after) (hbefore : IsBound before) :
    IsAsciiPlace cs (5 + before.length) := by
  have hascii : ∀ c ∈ '[' :: (before ++ Range.separator), c.toNat < 128 := by
    have hseparator : ∀ c ∈ Range.separator, decide (c.toNat < 128) := List.all_eq_true.1 rfl
    intro c hc
    rw [List.mem_cons, List.mem_append] at hc
    rcases hc with rfl | hc | hc
    · decide
    · exact hbefore.ascii c hc
    · exact of_decide_eq_true (hseparator c hc)
  have hlen : ('[' :: (before ++ Range.separator)).length = 5 + before.length := by
    rw [List.length_cons, List.length_append, show Range.separator.length = 4 from rfl]
    omega
  have hplace := isAsciiPlace_append (after ++ [']']) hascii
  rw [hlen] at hplace
  rw [h.eq, List.append_assoc]
  exact hplace

end Grammar

namespace Range

/-- An error blames the order of two bounds, or a place in the text. -/
theorem Rejects.located {s : String} {e : Error} (h : Rejects s e) :
    (∃ before after lower upper, e = .ordering lower upper ∧ Splits s.toList before after ∧
      IsBound before ∧ IsBound after) ∨
    (∃ offset fault, e = .grammar s offset fault ∧ IsAsciiPlace s.toList offset ∧
      (fault = .missingBracket ∨ fault = .missingSeparator ∨
        ∃ bound, fault = .unmatchedBound bound)) := by
  have hstart : IsAsciiPlace s.toList 0 := isAsciiPlace_append s.toList (List.forall_mem_nil _)
  cases h with
  | bound => exact .inr ⟨_, _, rfl, hstart, .inr (.inr ⟨_, rfl⟩)⟩
  | bracket => exact .inr ⟨_, _, rfl, hstart, .inl rfl⟩
  | separator => exact .inr ⟨_, _, rfl, hstart, .inr (.inl rfl)⟩
  | lower hsplits => exact .inr ⟨_, _, rfl, hsplits.isAsciiPlace_lower, .inr (.inr ⟨_, rfl⟩)⟩
  | upper hsplits hbefore =>
    exact .inr ⟨_, _, rfl, hsplits.isAsciiPlace_upper hbefore, .inr (.inr ⟨_, rfl⟩)⟩
  | inverted hsplits hx hy =>
    have hbefore := BoundTree.exists_denotes_iff.1 ⟨_, hx⟩
    have hafter := BoundTree.exists_denotes_iff.1 ⟨_, hy⟩
    exact .inl ⟨_, _, _, _, rfl, hsplits, ⟨_, rfl, hbefore⟩, ⟨_, rfl, hafter⟩⟩

/-- **Where a parse fails.** A text is refused for the first thing that is wrong with it, as
`Rejects` has it. The error is one of ordering only if the text is split at its first separator into
two texts that are read as bounds. Any other error blames the text itself, for its brackets, its
separator or one of its bounds, and gives an offset into it. In front of the offset there are as
many characters as bytes, all of them ASCII. -/
theorem refusal_located (s : String) :
    (∀ e, Range.parse s = .error e ↔ Rejects s e) ∧
    (∀ e, Range.parse s = .error e →
      (∃ before after lower upper, e = .ordering lower upper ∧ Splits s.toList before after ∧
        IsBound before ∧ IsBound after) ∨
      (∃ offset fault, e = .grammar s offset fault ∧
        (IsAsciiPlace s.toList offset ∧ offset ≤ (Utf8.encode s.toList).length) ∧
        (fault = .missingBracket ∨ fault = .missingSeparator ∨
          ∃ bound, fault = .unmatchedBound bound))) ∧
    (∀ edge cs, (∃ b, Bound.parse edge (String.ofList cs) = .ok b) ↔ IsBound cs) := by
  refine ⟨fun e => parse_eq_error_iff, ?_, fun edge cs => Bound.exists_parse_iff⟩
  intro e h
  rcases (parse_eq_error_iff.1 h).located with hordering | ⟨offset, fault, rfl, hplace, hfault⟩
  · exact .inl hordering
  · exact .inr ⟨offset, fault, rfl, ⟨hplace, hplace.le_length⟩, hfault⟩

/-- The letter takes two bytes, but it comes after the place where the reader stops. -/
theorem refusal_located_letter :
    Range.parse "[2001 TO é]" = .error (.grammar "[2001 TO é]" 9 (.unmatchedBound "é")) ∧
      IsAsciiPlace "[2001 TO é]".toList 9 := by
  have hparse : Range.parse "[2001 TO é]" =
      .error (.grammar "[2001 TO é]" 9 (.unmatchedBound "é")) := rfl
  refine ⟨hparse, ?_⟩
  rcases (refusal_located "[2001 TO é]").2.1 _ hparse with
    ⟨_, _, _, _, he, -⟩ | ⟨_, _, he, hplace, -⟩
  · cases he
  · cases he
    exact hplace.1

end Range

end DateSpan

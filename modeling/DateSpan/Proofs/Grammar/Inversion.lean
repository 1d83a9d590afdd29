import DateSpan.Proofs.Grammar.Refusal
import DateSpan.Proofs.Nesting
import DateSpan.Proofs.RoundTrip.Canonical

/-!
# Which bounds are inverted

A range of two dates is refused if the first instant of the lower one is after the last instant of
the upper one. The two instants come from roundings in opposite directions, at two precisions, but
there is no need to round in order to compare them. Only the fields count that both dates have:

    accepted_bracketed_iff : Accepted (bracketed a b) ↔ d.NotAfter e

where `d` and `e` are the derivations of `a` and `b`. The reason is that outward roundings keep the
order of two instants (`roundDown_le_roundUp`), and that they stay within the periods of the coarser
precision, where one period comes before the other or both are the same
(`roundDown_le_roundUp_iff`).
-/

namespace DateSpan

open Grammar

/-! ## The order of dates down to a precision -/

namespace DateTime

variable {p q : Precision} {s t : DateTime}

/-- From the year down to the precision, the fields of the first date are lexicographically at most
those of the second. -/
def LeTo (p : Precision) (s t : DateTime) : Prop :=
  List.Lex (· < ·) (s.fieldsTo p) (t.fieldsTo p) ∨ s.fieldsTo p = t.fieldsTo p

instance : Decidable (LeTo p s t) :=
  inferInstanceAs (Decidable (List.Lex (· < ·) (s.fieldsTo p) (t.fieldsTo p) ∨
    s.fieldsTo p = t.fieldsTo p))

theorem leTo_total (p : Precision) (s t : DateTime) : s.LeTo p t ∨ t.LeTo p s := by
  rcases trichotomous_of (List.Lex (· < ·)) (s.fieldsTo p) (t.fieldsTo p) with lt | eq | gt
  · exact .inl (.inl lt)
  · exact .inl (.inr eq)
  · exact .inr (.inl gt)

/-- Dates that do not agree down to the precision are ordered as their instants are. -/
theorem leTo_iff (hs : s.Valid) (ht : t.Valid) :
    s.LeTo p t ↔ s.toInstant ≤ t.toInstant ∨ s.fieldsTo p = t.fieldsTo p := by
  constructor
  · intro h
    rcases h with hlex | hfields
    · exact .inl (Int.le_of_lt ((toInstant_lt_iff hs ht).2 (lex_of_lex_fieldsTo hlex)))
    · exact .inr hfields
  · intro h
    rcases h with hle | hfields
    · rcases trichotomous_of (List.Lex (· < ·)) (s.fieldsTo p) (t.fieldsTo p) with lt | eq | gt
      · exact .inl lt
      · exact .inr eq
      · have hlt := (toInstant_lt_iff ht hs).2 (lex_of_lex_fieldsTo gt)
        exact absurd hle (Int.not_le.2 hlt)
    · exact .inr hfields

theorem leTo_and_leTo_iff (hs : s.Valid) (ht : t.Valid) :
    s.LeTo p t ∧ t.LeTo p s ↔ s.fieldsTo p = t.fieldsTo p := by
  rw [leTo_iff hs ht, leTo_iff ht hs]
  constructor
  · intro h
    rcases h with ⟨hst | hfields, hts | hfields'⟩
    · rw [← ofInstant_toInstant hs, Int.le_antisymm hst hts, ofInstant_toInstant ht]
    · exact hfields'.symm
    · exact hfields
    · exact hfields
  · intro h
    exact ⟨.inr h, .inr h.symm⟩

/-- Dates agree down to the coarser precision if the fields of one continue those of the other. -/
theorem fieldsTo_eq_iff_of_le (h : p ≤ q) :
    s.fieldsTo p = t.fieldsTo p ↔ s.fieldsTo p <+: t.fieldsTo q ∨ t.fieldsTo q <+: s.fieldsTo p := by
  have hiff : s.fieldsTo p = t.fieldsTo p ↔ s.fieldsTo p <+: t.fieldsTo q := by
    rw [List.prefix_iff_eq_take, Precision.length_fieldsTo, ← Precision.fieldsTo_eq_take h]
  rw [hiff]
  constructor
  · intro hshort
    exact .inl hshort
  · intro hone
    rcases hone with hshort | hlong
    · exact hshort
    · -- The longer one is a prefix only if it is not longer.
      have hlen : (s.fieldsTo p).length ≤ (t.fieldsTo q).length := by
        rw [Precision.length_fieldsTo, Precision.length_fieldsTo]
        exact Nat.succ_le_succ h
      have hsame : t.fieldsTo q = s.fieldsTo p := hlong.eq_of_length_le hlen
      exact ⟨[], by rw [List.append_nil, hsame]⟩

theorem fieldsTo_coarser_eq_iff :
    s.fieldsTo (p.coarser q) = t.fieldsTo (p.coarser q) ↔
      s.fieldsTo p <+: t.fieldsTo q ∨ t.fieldsTo q <+: s.fieldsTo p := by
  rcases Precision.le_or_ge p q with h | h
  · rw [Precision.coarser_eq_left h, fieldsTo_eq_iff_of_le h]
  · rw [Precision.coarser_eq_right h, eq_comm, fieldsTo_eq_iff_of_le h, or_comm]

end DateTime

/-! ## Roundings outward -/

/-- Rounding outward at two precisions keeps two instants in order, unless they are in different
periods of the coarser one and in the wrong order already. -/
theorem Precision.roundDown_le_roundUp_iff {p q : Precision} {i j : Int} (hi : InCalendar i)
    (hj : InCalendar j) :
    p.roundDown i ≤ q.roundUp j ↔
      (DateTime.ofInstant i).LeTo (p.coarser q) (DateTime.ofInstant j) := by
  rw [DateTime.leTo_iff (DateTime.valid_ofInstant hi) (DateTime.valid_ofInstant hj),
    DateTime.toInstant_ofInstant, DateTime.toInstant_ofInstant]
  constructor
  · intro h
    by_contra hno
    obtain ⟨hinv, hfields⟩ := not_or.1 hno
    have hji : j ≤ i := Int.le_of_lt (Int.not_le.1 hinv)
    have hlt : q.roundUp j < p.roundDown i :=
      calc
        q.roundUp j ≤ (p.coarser q).roundUp j := roundUp_le_roundUp (coarser_le_right p q) hj
        _ < (p.coarser q).roundDown i := roundUp_lt_roundDown hj hi hji (Ne.symm hfields)
        _ ≤ p.roundDown i := roundDown_le_roundDown (coarser_le_left p q) hi
    exact absurd h (Int.not_le.2 hlt)
  · intro h
    rcases h with hle | hfields
    · exact roundDown_le_roundUp hi hj hle
    · -- The coarser rounding is alike for both instants, and the other one does not reach beyond.
      rcases le_or_ge p q with h | h
      · rw [coarser_eq_left h] at hfields
        rw [roundDown, round_congr hi hj hfields]
        exact Int.le_trans (roundDown_le hj) (le_roundUp hj)
      · rw [coarser_eq_right h] at hfields
        rw [roundUp, ← round_congr hi hj hfields]
        exact Int.le_trans (roundDown_le hi) (le_roundUp hi)

/-! ## Dates in writing -/

namespace Grammar.DateTree

variable {d e : DateTree}

/-- The text is a date that exists, by this derivation. -/
structure Spells (d : DateTree) (a : String) : Prop where
  eq : d.flatten = a.toList
  valid : d.Valid

/-- The fields that are given, from the year down. -/
def fields (d : DateTree) : List Int := d.dateTime.fieldsTo d.precision

/-- The canonical text of the date. -/
def canonicalText (d : DateTree) : String := String.ofList d.canonical.flatten

/-- From the year down to the coarser of the two precisions, the fields of the first date are
lexicographically at most those of the second. -/
def NotAfter (d e : DateTree) : Prop :=
  d.dateTime.LeTo (d.precision.coarser e.precision) e.dateTime

instance : Decidable (d.NotAfter e) :=
  inferInstanceAs (Decidable (d.dateTime.LeTo (d.precision.coarser e.precision) e.dateTime))

/-- The texts that are read as dates are those that some derivation spells. -/
theorem exists_parse_iff_spells {edge : Edge} {a : String} {p : Precision} :
    (∃ i, Precision.parse edge a = .ok (i, p)) ↔ ∃ d : DateTree, d.Spells a ∧ d.precision = p := by
  rw [Precision.exists_parse_iff]
  constructor
  · intro h
    obtain ⟨d, heq, hvalid, hp⟩ := h
    exact ⟨d, ⟨heq, hvalid⟩, hp⟩
  · intro h
    obtain ⟨d, hd, hp⟩ := h
    exact ⟨d, hd.eq, hd.valid, hp⟩

theorem spells_canonicalText (hd : d.Valid) : d.canonical.Spells d.canonicalText := by
  refine ⟨String.toList_ofList.symm, ?_⟩
  rw [Valid, dateTime_canonical]
  exact hd

theorem canonicalText_canonical (d : DateTree) : d.canonical.canonicalText = d.canonicalText := by
  rw [canonicalText, canonical_canonical, canonicalText]

theorem notAfter_canonical_iff : d.canonical.NotAfter e.canonical ↔ d.NotAfter e := by
  rw [NotAfter, precision_canonical, precision_canonical, dateTime_canonical, dateTime_canonical,
    NotAfter]

theorem notAfter_total (d e : DateTree) : d.NotAfter e ∨ e.NotAfter d := by
  rw [NotAfter, NotAfter, Precision.coarser_comm e.precision]
  exact DateTime.leTo_total _ _ _

theorem notAfter_and_notAfter_iff (hd : d.Valid) (he : e.Valid) :
    d.NotAfter e ∧ e.NotAfter d ↔ d.fields <+: e.fields ∨ e.fields <+: d.fields := by
  rw [NotAfter, NotAfter, Precision.coarser_comm e.precision, DateTime.leTo_and_leTo_iff hd he]
  exact DateTime.fieldsTo_coarser_eq_iff

theorem notAfter_of_fields (h : d.fields <+: e.fields ∨ e.fields <+: d.fields) : d.NotAfter e :=
  .inr (DateTime.fieldsTo_coarser_eq_iff.2 h)

/-- What is written of an instant is a date with the fields of that instant. -/
theorem exists_spells_of_write? {p : Precision} {i : Int} {cs : List Char}
    (h : p.write? i = some cs) :
    ∃ d : DateTree, d.Spells (String.ofList cs) ∧ d.precision = p ∧
      d.fields = (DateTime.ofInstant i).fieldsTo p := by
  obtain ⟨hin, rfl⟩ := Precision.write?_eq_some_iff.1 h
  have ht := DateTime.valid_ofInstant hin
  refine ⟨ofDateTime p _ ht, ⟨?_, valid_ofDateTime ht⟩, precision_ofDateTime ht, ?_⟩
  · rw [flatten_ofDateTime, String.toList_ofList]
  · rw [fields, precision_ofDateTime, dateTime_ofDateTime, DateTime.fieldsTo_floor]

end Grammar.DateTree

/-- Two dates are in order as a range if the first is not after the second. -/
theorem Grammar.RangeTree.inOrder_date_iff {d e : DateTree} (hd : d.Valid) (he : e.Valid) :
    (between (.date d) (.date e)).InOrder ↔ d.NotAfter e := by
  have hends := Precision.roundDown_le_roundUp_iff (p := d.precision) (q := e.precision)
    (DateTime.inCalendar_toInstant hd) (DateTime.inCalendar_toInstant he)
  rw [DateTime.ofInstant_toInstant hd, DateTime.ofInstant_toInstant he] at hends
  rw [DateTree.NotAfter, ← hends]
  constructor
  · intro h
    exact h _ _ (d.isEnd_round hd .lower) (e.isEnd_round he .upper)
  · intro h i j hi hj
    rw [IsLeast.unique hi (DateTree.isEnd_round hd .lower),
      IsGreatest.unique hj (DateTree.isEnd_round he .upper)]
    exact h

/-! ## Two bounds in brackets -/

namespace Range

/-- The text is a range. -/
def Accepted (s : String) : Prop := ∃ r, Range.parse s = .ok r

/-- The text of a range between two bounds that are given by their texts. -/
def bracketed (a b : String) : String := "[" ++ a ++ " TO " ++ b ++ "]"

theorem accepted_iff {s : String} {x : RangeTree} (hx : x.flatten = s.toList) :
    Accepted s ↔ x.Valid ∧ x.InOrder := by
  rw [← RangeTree.exists_denotes_iff]
  constructor
  · intro h
    obtain ⟨r, hr⟩ := h
    obtain ⟨y, hy, hden⟩ := parse_eq_ok_iff.1 hr
    rw [RangeTree.flatten_injective (hx.trans hy.symm)]
    exact ⟨r, hden⟩
  · intro h
    obtain ⟨r, hden⟩ := h
    exact ⟨r, parse_eq_ok_iff.2 ⟨x, hx, hden⟩⟩

theorem toList_bracketed (a b : String) :
    (bracketed a b).toList = '[' :: (a.toList ++ separator ++ b.toList ++ [']']) := by
  simp [bracketed, separator, String.toList_append]

theorem flatten_eq_bracketed {x y : BoundTree} {a b : String} (hx : x.flatten = a.toList)
    (hy : y.flatten = b.toList) :
    (RangeTree.between x y).flatten = (bracketed a b).toList := by
  rw [toList_bracketed, ← hx, ← hy]
  rfl

variable {a b : String} {d e : DateTree}

theorem accepted_bracketed_iff_between {x y : BoundTree} (hx : x.flatten = a.toList)
    (hy : y.flatten = b.toList) :
    Accepted (bracketed a b) ↔ (RangeTree.between x y).Valid ∧ (RangeTree.between x y).InOrder :=
  accepted_iff (flatten_eq_bracketed hx hy)

/-- **The fields that both dates have decide.** -/
theorem accepted_bracketed_iff (ha : d.Spells a) (hb : e.Spells b) :
    Accepted (bracketed a b) ↔ d.NotAfter e := by
  have hvalid : (RangeTree.between (.date d) (.date e)).Valid := ⟨ha.valid, hb.valid⟩
  rw [@accepted_bracketed_iff_between a b (.date d) (.date e) ha.eq hb.eq,
    RangeTree.inOrder_date_iff ha.valid hb.valid]
  exact and_iff_right hvalid

/-- A star is in order with every date, on either side. -/
theorem accepted_bracketed_star (ha : d.Spells a) :
    Accepted (bracketed "*" a) ∧ Accepted (bracketed a "*") := by
  constructor
  · rw [@accepted_bracketed_iff_between "*" a .star (.date d) rfl ha.eq]
    exact ⟨⟨trivial, ha.valid⟩, trivial⟩
  · rw [@accepted_bracketed_iff_between a "*" (.date d) .star ha.eq rfl]
    exact ⟨⟨ha.valid, trivial⟩, trivial⟩

/-- A date alone is a range, and it is written in the canonical spelling. -/
theorem exists_parse_of_spells (ha : d.Spells a) :
    ∃ r, Range.parse a = .ok r ∧ toString r = d.canonicalText := by
  have hx : (RangeTree.single (.date d)).flatten = a.toList := ha.eq
  obtain ⟨r, hr⟩ := (accepted_iff hx).2 ⟨ha.valid, trivial⟩
  refine ⟨r, hr, ?_⟩
  rw [← String.toList_inj, ← flatten_canonical hr hx, DateTree.canonicalText,
    String.toList_ofList]
  rfl

/-- Inverted dates are refused in their canonical spellings. -/
theorem parse_bracketed_of_after (ha : d.Spells a) (hb : e.Spells b) (h : ¬ d.NotAfter e) :
    Range.parse (bracketed a b) = .error (.ordering d.canonicalText e.canonicalText) := by
  have hsplits : Splits (bracketed a b).toList (BoundTree.date d).flatten
      (BoundTree.date e).flatten := by
    rw [← @flatten_eq_bracketed (.date d) (.date e) a b ha.eq hb.eq]
    exact splits_flatten _ _
  obtain ⟨l, hl⟩ := (@BoundTree.exists_denotes_iff .lower (.date d)).2 ha.valid
  obtain ⟨u, hu⟩ := (@BoundTree.exists_denotes_iff .upper (.date e)).2 hb.valid
  have hinv : ¬ l.InOrder u := by
    rw [inOrder_iff hl hu, RangeTree.inOrder_date_iff ha.valid hb.valid]
    exact h
  rw [parse_eq_ofBounds hsplits hl hu, ofBounds, dif_neg hinv, BoundTree.Denotes.text_eq hl,
    BoundTree.Denotes.text_eq hu]
  rfl

/-- A bound that is read as a moment is a date, and dates have no star in them. -/
theorem star_not_mem_flatten {edge : Edge} {x : BoundTree} {m : Moment}
    (h : x.Denotes edge (.bounded m)) : '*' ∉ x.flatten := by
  rcases x with _ | d
  · cases h
  · exact d.not_mem_flatten (by decide)

/-- A text with a star in it is not refused for the order of its bounds. -/
theorem parse_ne_ordering {s lower upper : String} (h : '*' ∈ s.toList) :
    Range.parse s ≠ .error (.ordering lower upper) := by
  intro hparse
  rw [parse_eq_error_iff] at hparse
  cases hparse with
  | inverted hsplits hx hy =>
    have hlower := star_not_mem_flatten hx
    have hupper := star_not_mem_flatten hy
    rw [hsplits.eq] at h
    simp [separator, hlower, hupper] at h

/-- Dates of one instant are in order, whatever their precisions. -/
theorem accepted_bracketed_of_write? {i : Int} {p q : Precision} {cs cs' : List Char}
    (h : p.write? i = some cs) (h' : q.write? i = some cs') :
    Accepted (bracketed (String.ofList cs) (String.ofList cs')) := by
  obtain ⟨d, hd, rfl, hfields⟩ := DateTree.exists_spells_of_write? h
  obtain ⟨e, he, rfl, hfields'⟩ := DateTree.exists_spells_of_write? h'
  rw [accepted_bracketed_iff hd he]
  apply DateTree.notAfter_of_fields
  rw [hfields, hfields']
  exact DateTime.fieldsTo_coarser_eq_iff.1 rfl

/-- **The fields that two dates have in common decide their order.** Between two dates there is a
range if and only if the fields of the first one, from the year down to the coarser of the two
precisions, are lexicographically at most those of the second. If they are not, the error has the
canonical texts of the dates, and these are refused with the same error. So between any two dates
there is a range in one order or the other, and in both exactly if the fields of one continue those
of the other, as with a date and itself or dates of one instant. A star is in order with anything. -/
theorem ordered_by_common_fields :
    (∀ (a b : String) (d e : DateTree), d.Spells a → e.Spells b →
      (Accepted (bracketed a b) ↔ d.NotAfter e) ∧
      (¬ d.NotAfter e →
        Range.parse (bracketed a b) = .error (.ordering d.canonicalText e.canonicalText) ∧
        Range.parse (bracketed d.canonicalText e.canonicalText) =
          .error (.ordering d.canonicalText e.canonicalText)) ∧
      (Accepted (bracketed a b) ∨ Accepted (bracketed b a)) ∧
      (Accepted (bracketed a b) ∧ Accepted (bracketed b a) ↔
        d.fields <+: e.fields ∨ e.fields <+: d.fields)) ∧
    (∀ (a : String) (d : DateTree), d.Spells a →
      (∃ r, Range.parse a = .ok r ∧ toString r = d.canonicalText) ∧
      Accepted (bracketed a a) ∧ Accepted (bracketed "*" a) ∧ Accepted (bracketed a "*")) ∧
    (∀ (i : Int) (p q : Precision) (cs cs' : List Char), p.write? i = some cs →
      q.write? i = some cs' → Accepted (bracketed (String.ofList cs) (String.ofList cs'))) ∧
    (∀ a b : String, a = "*" ∨ b = "*" → ∀ lower upper,
      Range.parse (bracketed a b) ≠ .error (.ordering lower upper)) ∧
    (∀ edge a p, (∃ i, Precision.parse edge a = .ok (i, p)) ↔
      ∃ d : DateTree, d.Spells a ∧ d.precision = p) := by
  refine ⟨?_, ?_, fun i p q cs cs' => accepted_bracketed_of_write?, ?_,
    fun edge a p => DateTree.exists_parse_iff_spells⟩
  · intro a b d e ha hb
    refine ⟨accepted_bracketed_iff ha hb, ?_, ?_, ?_⟩
    · intro h
      refine ⟨parse_bracketed_of_after ha hb h, ?_⟩
      have hcanonical := parse_bracketed_of_after (DateTree.spells_canonicalText ha.valid)
        (DateTree.spells_canonicalText hb.valid) (mt DateTree.notAfter_canonical_iff.1 h)
      rw [DateTree.canonicalText_canonical, DateTree.canonicalText_canonical] at hcanonical
      exact hcanonical
    · rw [accepted_bracketed_iff ha hb, accepted_bracketed_iff hb ha]
      exact d.notAfter_total e
    · rw [accepted_bracketed_iff ha hb, accepted_bracketed_iff hb ha]
      exact DateTree.notAfter_and_notAfter_iff ha.valid hb.valid
  · intro a d ha
    refine ⟨exists_parse_of_spells ha, ?_, accepted_bracketed_star ha⟩
    exact (accepted_bracketed_iff ha ha).2 (DateTree.notAfter_of_fields (.inl List.prefix_rfl))
  · intro a b h lower upper
    apply parse_ne_ordering
    rw [toList_bracketed]
    rcases h with rfl | rfl <;> simp

/-- The leap day is after the year before and is refused by its canonical text, but it is in order
with its own month both ways. -/
theorem ordered_by_common_fields_leapDay :
    Range.parse "[02012-02-29 TO 2011]" = .error (.ordering "2012-02-29" "2011") ∧
      Accepted "[02012-02-29 TO 2012-02]" ∧ Accepted "[2012-02 TO 02012-02-29]" ∧
      Accepted "[2012-02-29T12 TO 2012]" ∧
      Range.parse "[* TO 2012 TO 2011]" ≠ .error (.ordering "2012" "2011") := by
  let d := leapDay ['0', '2', '0', '1', '2'] (List.all_eq_true.1 rfl) (by decide)
  let e := DateTree.ofDateTime .year ⟨2011, 1, 1, 0, 0, 0, 0⟩ (by decide)
  let f := DateTree.ofDateTime .month ⟨2012, 2, 1, 0, 0, 0, 0⟩ (by decide)
  have hd : d.Spells "02012-02-29" := ⟨rfl, (by decide : DateTime.Valid _)⟩
  have he : e.Spells "2011" := ⟨by decide, (by decide : DateTime.Valid _)⟩
  have hf : f.Spells "2012-02" := ⟨by decide, (by decide : DateTime.Valid _)⟩
  have hafter : ¬ d.NotAfter e := by decide
  have hfields : f.fields <+: d.fields := by decide
  have htexts : d.canonicalText = "2012-02-29" ∧ e.canonicalText = "2011" := by decide
  obtain ⟨hdates, -, hinstant, hstar, -⟩ := ordered_by_common_fields
  have hrefused := ((hdates _ _ d e hd he).2.1 hafter).1
  rw [htexts.1, htexts.2] at hrefused
  have hboth := (hdates _ _ d f hd hf).2.2.2.2 (.inr hfields)
  refine ⟨hrefused, hboth.1, hboth.2, ?_, ?_⟩
  · exact hinstant 1330516800000 .hour .year ['2', '0', '1', '2', '-', '0', '2', '-', '2', '9',
      'T', '1', '2'] ['2', '0', '1', '2'] (by decide) (by decide)
  · exact hstar "*" "2012 TO 2011" (.inl rfl) "2012" "2011"

end Range

end DateSpan

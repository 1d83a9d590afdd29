import DateSpan.Column
import DateSpan.Proofs.Grammar.Writing

/-!
# Writing and reading

A range comes back from its text with the same bounds at the same precisions, each concrete
bound moved outward to the end of its period: `Range.settle`. Nothing else can be expected,
since the text does not have the fields below the precision. A range that has its bounds there
already is `Settled`, and comes back as it was; so does every range that was read from a text.

That the bounds are in order again is part of the definition of `settle`. That they are the
ones read back is seen on the derivation: it denotes the settled range (`denotes_ofRange`).
-/

namespace DateSpan

open Grammar

/-! ## Settled bounds -/

/-- An instant at the end of some period of a precision stays there when it is rounded. -/
theorem Precision.round_of_isEnd {p : Precision} {edge : Edge} {t : DateTime} {i : Int}
    (h : IsEnd edge (p.period t) i) : p.round edge i = i := by
  have hmem : i ∈ p.period t := by
    cases edge with
    | lower => exact h.1
    | upper => exact h.1
  obtain ⟨hin, hfields⟩ := hmem
  -- The period it is an end of is its own, and that has one end only on each side.
  have hown : p.period (.ofInstant i) = p.period t := by simp only [period, hfields]
  rw [← hown] at h
  exact (p.isEnd_round edge hin).unique h

namespace Moment

/-- The moment at the end of its period that the edge asks for. -/
def settle (edge : Edge) (m : Moment) : Moment where
  instant := m.precision.round edge m.instant
  precision := m.precision
  inCalendar := Precision.inCalendar_round m.inCalendar

end Moment

namespace Bound

/-- A concrete bound is moved to the end of its period, an open one stays open. -/
def settle (edge : Edge) : Bound → Bound
  | unbounded => unbounded
  | bounded m => bounded (m.settle edge)

/-- The bound is at the end of its period already, or open. -/
def Settled (edge : Edge) (b : Bound) : Prop :=
  ∀ m, b.moment? = some m → m.precision.round edge m.instant = m.instant

theorem settle_eq_self_iff {edge : Edge} {b : Bound} : b.settle edge = b ↔ b.Settled edge := by
  rcases b with _ | ⟨i, p, h⟩
  · simp [settle, Settled, moment?]
  · simp [settle, Settled, moment?, Moment.settle]

/-- Rounding outward cannot invert two bounds. -/
theorem inOrder_settle {l u : Bound} (h : l.InOrder u) :
    (l.settle .lower).InOrder (u.settle .upper) := by
  rcases l with _ | m
  · trivial
  · rcases u with _ | n
    · trivial
    · exact Precision.roundDown_le_roundUp m.inCalendar n.inCalendar h

end Bound

namespace Range

/-- The range with the same bounds at the same precisions, the lower one rounded down and the
upper one rounded up. A single bound counts as a lower one. -/
def settle : Range → Range
  | single b => single (b.settle .lower)
  | between l u h => between (l.settle .lower) (u.settle .upper) (Bound.inOrder_settle h)

/-- The lower bound is rounded down already, and the upper one, if there are two, up. -/
def Settled (r : Range) : Prop :=
  r.lower.Settled .lower ∧ ∀ u, r.upper? = some u → u.Settled .upper

theorem settle_eq_self_iff {r : Range} : r.settle = r ↔ r.Settled := by
  rcases r with b | ⟨l, u, h⟩
  · simp [settle, Settled, lower, upper?, Bound.settle_eq_self_iff]
  · simp [settle, Settled, lower, upper?, Bound.settle_eq_self_iff]

end Range

/-! ## What the derivation of a range denotes -/

namespace Grammar

theorem BoundTree.denotes_ofBound (edge : Edge) (b : Bound) :
    (ofBound b).Denotes edge (b.settle edge) := by
  rcases b with _ | m
  · rfl
  · have ht := DateTime.valid_ofInstant m.inCalendar
    refine ⟨DateTree.valid_ofDateTime ht, m.settle edge, rfl, ?_, ?_⟩
    · exact (DateTree.precision_ofDateTime ht).symm
    · rw [DateTree.period_ofDateTime]
      exact m.precision.isEnd_round edge m.inCalendar

theorem RangeTree.denotes_ofRange (r : Range) : (ofRange r).Denotes r.settle := by
  rcases r with b | ⟨l, u, h⟩
  · exact ⟨_, BoundTree.denotes_ofBound .lower b, rfl⟩
  · refine ⟨_, _, Bound.inOrder_settle h, ?_, ?_, rfl⟩
    · exact BoundTree.denotes_ofBound .lower l
    · exact BoundTree.denotes_ofBound .upper u

/-- Whatever a derivation denotes is settled. -/
theorem BoundTree.Denotes.settled {edge : Edge} {x : BoundTree} {b : Bound}
    (h : x.Denotes edge b) : b.Settled edge := by
  rcases x with _ | d
  · obtain rfl : b = .unbounded := h
    intro m hm
    cases hm
  · obtain ⟨-, m, rfl, hp, hend⟩ := h
    intro n hn
    cases hn
    rw [hp]
    exact Precision.round_of_isEnd hend

theorem RangeTree.Denotes.settled {x : RangeTree} {r : Range} (h : x.Denotes r) : r.Settled := by
  rcases x with b | ⟨x, y⟩
  · obtain ⟨l, hl, rfl⟩ := h
    refine ⟨hl.settled, ?_⟩
    intro u hu
    cases hu
  · obtain ⟨l, u, _, hl, hu, rfl⟩ := h
    refine ⟨hl.settled, ?_⟩
    intro v hv
    cases hv
    exact hu.settled

end Grammar

/-! ## Ranges and cells -/

namespace Range

/-- A range is read back from its text as the settled range. -/
theorem parse_toString (r : Range) : Range.parse (toString r) = .ok r.settle := by
  rw [parse_eq_ok_iff]
  refine ⟨.ofRange r, ?_, RangeTree.denotes_ofRange r⟩
  rw [RangeTree.flatten_ofRange, show toString r = String.ofList r.text from rfl,
    String.toList_ofList]

theorem settled_of_parse {s : String} {r : Range} (h : Range.parse s = .ok r) : r.Settled := by
  obtain ⟨x, -, hx⟩ := parse_eq_ok_iff.1 h
  exact hx.settled

end Range

namespace Cell

/-- A text without the letter that the null word begins with is not that word. -/
theorem not_sameName_of_forall {cs : List Char} (h : ∀ c ∈ cs, c.toLower ≠ 'n') :
    ¬ Letter.sameName (String.ofList cs) nullWord := by
  rw [Letter.sameName_iff, String.toList_ofList]
  intro hsame
  have hmem : 'n' ∈ cs.map Char.toLower := by
    rw [hsame]
    decide
  obtain ⟨c, hc, hlow⟩ := List.mem_map.1 hmem
  exact h c hc hlow

/-- No range is written as the null word, in letters of either case. -/
theorem not_sameName_nullWord (r : Range) : ¬ Letter.sameName (toString r) nullWord := by
  refine not_sameName_of_forall fun c hc hlow => ?_
  have hchar := Range.isRangeChar_of_mem_text hc
  rcases @Letter.eq_or_eq_of_toLower_eq c 'n' 'N' rfl hlow with rfl | rfl
  · exact absurd hchar (by decide)
  · exact absurd hchar (by decide)

theorem parse_some_eq_ok_some_iff {s : String} {r : Range} :
    Cell.parse (some s) = .ok (some r) ↔
      ¬ Letter.sameName s nullWord ∧ Range.parse s = .ok r := by
  rw [Cell.parse]
  split
  · next h => simp [h]
  · next h => cases hs : Range.parse s <;> simp [h, Except.map]

/-- **A cell comes back from its text settled.** Reading never fails; the cell is null again
exactly if it was, and a range has the shape, the open sides and the precisions it had, its
lower bound rounded down and its upper bound rounded up. So it comes back as it was exactly if
the bounds were rounded that way before, and they were if it had been read from a text. -/
theorem parse_text (v : Cell) :
    Cell.parse (some (Cell.text v)) = .ok (v.map Range.settle) ∧
    (v.map Range.settle = v ↔ ∀ r, v = some r → r.Settled) ∧
    (∀ source, Cell.parse source = .ok v → v.map Range.settle = v) := by
  have hsettled : v.map Range.settle = v ↔ ∀ r, v = some r → r.Settled := by
    rcases v with _ | r
    · simp
    · simp [Range.settle_eq_self_iff]
  refine ⟨?_, hsettled, ?_⟩
  · rcases v with _ | r
    · rfl
    · exact parse_some_eq_ok_some_iff.2 ⟨not_sameName_nullWord r, Range.parse_toString r⟩
  · intro source h
    apply hsettled.2
    rintro r rfl
    rcases source with _ | s
    · cases h
    · exact Range.settled_of_parse (parse_some_eq_ok_some_iff.1 h).2

/-- Noon of a leap day, meant to the month, comes back as the first instant of its month. -/
theorem parse_text_noon :
    Cell.parse (some (Cell.text (some (.single (.bounded ⟨1330516800000, .month, by decide⟩))))) =
      .ok (some (.single (.bounded ⟨1328054400000, .month, by decide⟩))) := by
  rw [(parse_text _).1]
  decide +kernel

end Cell

end DateSpan

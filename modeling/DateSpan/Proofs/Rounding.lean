import DateSpan.Proofs.Period

/-!
# Rounding, instant by instant

Two instants of the calendar either agree down to a precision or they do not. If they do, they
are rounded alike (`round_congr`); if they do not, the whole period of the earlier one comes
before the whole period of the later one (`roundUp_lt_roundDown`). What there is to say about
rounding follows from these two, with no further look at fields: it stays in the period, it has
no effect the second time, and it keeps the order of instants.
-/

namespace DateSpan.Precision

open DateTime

variable {p : Precision} {edge : Edge} {i j : Int}

/-! ## Within a period -/

theorem fieldsTo_round (h : InCalendar i) :
    (ofInstant (p.round edge i)).fieldsTo p = (ofInstant i).fieldsTo p := by
  have ht := valid_ofInstant h
  rw [round_of_inCalendar h, ofInstant_toInstant (round_valid p edge ht),
    DateTime.fieldsTo_round p edge ht]

/-- Instants that agree down to the precision are rounded alike. -/
theorem round_congr (hi : InCalendar i) (hj : InCalendar j)
    (h : (ofInstant i).fieldsTo p = (ofInstant j).fieldsTo p) :
    p.round edge i = p.round edge j := by
  have hperiod : p.period (ofInstant i) = p.period (ofInstant j) := by simp only [period, h]
  cases edge with
  | lower =>
    have hleast := isLeast_roundDown p hi
    rw [hperiod] at hleast
    exact hleast.unique (isLeast_roundDown p hj)
  | upper =>
    have hgreatest := isGreatest_roundUp p hi
    rw [hperiod] at hgreatest
    exact hgreatest.unique (isGreatest_roundUp p hj)

/-- Of two roundings at the same precision the second decides. -/
theorem round_round (p : Precision) (edge edge' : Edge) (i : Int) :
    p.round edge (p.round edge' i) = p.round edge i := by
  by_cases h : InCalendar i
  · exact round_congr (inCalendar_round h) h (fieldsTo_round h)
  · rw [round_of_not_inCalendar h]

/-- There are no fields below the millisecond. -/
theorem round_millisecond (edge : Edge) (i : Int) : millisecond.round edge i = i := by
  by_cases h : InCalendar i
  · have hkept : (ofInstant i).round millisecond edge = ofInstant i := by
      cases edge <;> rfl
    rw [round_of_inCalendar h, hkept, toInstant_ofInstant]
  · exact round_of_not_inCalendar h

theorem roundDown_le_round (h : InCalendar i) : p.roundDown i ≤ p.round edge i :=
  ((roundDown_le_and_le_roundUp_iff h (inCalendar_round h)).2 (fieldsTo_round h)).1

theorem round_le_roundUp (h : InCalendar i) : p.round edge i ≤ p.roundUp i :=
  ((roundDown_le_and_le_roundUp_iff h (inCalendar_round h)).2 (fieldsTo_round h)).2

/-! ## From one period to the next -/

/-- If two instants do not agree, all of the earlier one's period is before all of the later
one's. -/
theorem roundUp_lt_roundDown (hi : InCalendar i) (hj : InCalendar j) (hij : i ≤ j)
    (h : (ofInstant i).fieldsTo p ≠ (ofInstant j).fieldsTo p) :
    p.roundUp i < p.roundDown j := by
  have hafter : p.roundUp i < j := by
    by_contra hle
    have hin : p.roundDown i ≤ j ∧ j ≤ p.roundUp i :=
      ⟨Int.le_trans (roundDown_le hi) hij, Int.not_lt.1 hle⟩
    exact h ((roundDown_le_and_le_roundUp_iff hi hj).1 hin).symm
  -- Were the end of the first period inside the second one, its fields would be those of both.
  by_contra hle
  have hend : InCalendar (p.roundUp i) := inCalendar_round hi
  have hin : p.roundDown j ≤ p.roundUp i ∧ p.roundUp i ≤ p.roundUp j :=
    ⟨Int.not_lt.1 hle, Int.le_trans (Int.le_of_lt hafter) (le_roundUp hj)⟩
  have hfields := (roundDown_le_and_le_roundUp_iff hj hend).1 hin
  rw [roundUp, fieldsTo_round hi] at hfields
  exact h hfields

/-- Rounding keeps the order of instants, inside the calendar and out of it. -/
theorem round_mono (p : Precision) (edge : Edge) (h : i ≤ j) :
    p.round edge i ≤ p.round edge j := by
  by_cases hi : InCalendar i
  · by_cases hj : InCalendar j
    · by_cases hfields : (ofInstant i).fieldsTo p = (ofInstant j).fieldsTo p
      · exact Int.le_of_eq (round_congr hi hj hfields)
      · calc
          p.round edge i ≤ p.roundUp i := round_le_roundUp hi
          _ ≤ p.roundDown j := Int.le_of_lt (roundUp_lt_roundDown hi hj h hfields)
          _ ≤ p.round edge j := roundDown_le_round hj
    · -- The later instant is after the last one of the calendar.
      have hin : InCalendar (p.round edge i) := inCalendar_round hi
      rw [round_of_not_inCalendar hj]
      simp only [InCalendar] at hi hj hin
      omega
  · by_cases hj : InCalendar j
    · have hin : InCalendar (p.round edge j) := inCalendar_round hj
      rw [round_of_not_inCalendar hi]
      simp only [InCalendar] at hi hj hin
      omega
    · rw [round_of_not_inCalendar hi, round_of_not_inCalendar hj]
      exact h

/-! ## All of it together -/

/-- **Rounding gives the ends of the period.** In the calendar both ends are there, and exactly
the instants between them have the same fields from the year down to the precision; so an instant
lies between its own ends, which have its fields and are rounded to themselves. The rounded fields
always name an instant, so that none stays as it is for want of a date. Outside the calendar they
all do. -/
theorem rounds_to_ends (p : Precision) :
    (∀ i, InCalendar i →
      (InCalendar (p.roundDown i) ∧ InCalendar (p.roundUp i)) ∧
      (∀ j, InCalendar j → (p.roundDown i ≤ j ∧ j ≤ p.roundUp i ↔
        (ofInstant j).fieldsTo p = (ofInstant i).fieldsTo p)) ∧
      (p.roundDown i ≤ i ∧ i ≤ p.roundUp i) ∧
      (p.roundDown (p.roundDown i) = p.roundDown i ∧ p.roundUp (p.roundUp i) = p.roundUp i) ∧
      ((ofInstant (p.roundDown i)).fieldsTo p = (ofInstant i).fieldsTo p ∧
        (ofInstant (p.roundUp i)).fieldsTo p = (ofInstant i).fieldsTo p) ∧
      (((ofInstant i).round p .lower).toInstant? = some (p.roundDown i) ∧
        ((ofInstant i).round p .upper).toInstant? = some (p.roundUp i))) ∧
    (∀ i, ¬ InCalendar i → p.roundDown i = i ∧ p.roundUp i = i) := by
  constructor
  · intro i hi
    have hnamed (edge : Edge) :
        ((ofInstant i).round p edge).toInstant? = some (p.round edge i) := by
      rw [toInstant?_round p edge (valid_ofInstant hi), round_of_inCalendar hi]
    refine ⟨⟨inCalendar_round hi, inCalendar_round hi⟩, ?_, ⟨roundDown_le hi, le_roundUp hi⟩,
      ⟨round_round p _ _ i, round_round p _ _ i⟩, ⟨fieldsTo_round hi, fieldsTo_round hi⟩,
      ⟨hnamed .lower, hnamed .upper⟩⟩
    intro j hj
    exact roundDown_le_and_le_roundUp_iff hi hj
  · intro i hi
    exact ⟨round_of_not_inCalendar hi, round_of_not_inCalendar hi⟩

/-- The last millisecond of February is in the month of noon on the 29th, in the year `0`. -/
theorem rounds_to_ends_leapDay :
    month.roundDown (-62162078400000) ≤ -62162035200001 ∧
      -62162035200001 ≤ month.roundUp (-62162078400000) :=
  (((rounds_to_ends month).1 _ (by decide)).2.1 _ (by decide)).2 (by decide)

end DateSpan.Precision

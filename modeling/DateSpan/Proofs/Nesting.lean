import DateSpan.Proofs.Rounding

/-!
# Rounding at two precisions

A coarser precision looks at fewer fields, so its periods are made up of whole periods of the
finer one. Two things follow for a precision `p` that is coarser than `q`, or the same:

* `round_round_of_le`: rounding at `q`, in either direction, does not leave the period of `p`, so
  it has no effect on a rounding at `p` that comes after it.
* `round_round_of_ge`: an end of a period of `p` is an end of a period of `q` on the same side, so
  rounding at `q` has no effect after a rounding at `p` in the same direction.

In one direction, then, the order of two roundings does not matter, and both together are the
rounding at the coarser precision: `round_round_eq_coarser`.
-/

namespace DateSpan.Precision

open DateTime

variable {p q : Precision} {edge : Edge} {i : Int}

/-! ## The coarser of two precisions -/

def coarser (p q : Precision) : Precision := if p ≤ q then p else q

theorem coarser_eq_left (h : p ≤ q) : p.coarser q = p := if_pos h

theorem coarser_eq_right (h : q ≤ p) : p.coarser q = q := by
  rw [coarser]
  split
  · next h' => exact rank_inj.1 (Nat.le_antisymm h' h)
  · rfl

theorem le_or_ge (p q : Precision) : p ≤ q ∨ q ≤ p := Nat.le_total p.rank q.rank

theorem coarser_comm (p q : Precision) : p.coarser q = q.coarser p := by
  rcases le_or_ge p q with h | h
  · rw [coarser_eq_left h, coarser_eq_right h]
  · rw [coarser_eq_right h, coarser_eq_left h]

theorem coarser_le_left (p q : Precision) : p.coarser q ≤ p := by
  rcases le_or_ge p q with h | h
  · rw [coarser_eq_left h]
    exact Nat.le_refl _
  · rw [coarser_eq_right h]
    exact h

theorem coarser_le_right (p q : Precision) : p.coarser q ≤ q := by
  rw [coarser_comm]
  exact coarser_le_left q p

/-! ## Periods in periods -/

theorem length_fieldsTo (p : Precision) (t : DateTime) : (t.fieldsTo p).length = p.rank + 1 := by
  cases p <;> rfl

theorem fieldsTo_eq_take (h : p ≤ q) (t : DateTime) :
    t.fieldsTo p = (t.fieldsTo q).take (p.rank + 1) := by
  rw [fieldsTo, fieldsTo, List.take_take, Nat.min_eq_left (Nat.succ_le_succ h)]

/-- Dates that agree down to a precision agree down to every coarser one. -/
theorem fieldsTo_congr_of_le (h : p ≤ q) {s t : DateTime} (hst : s.fieldsTo q = t.fieldsTo q) :
    s.fieldsTo p = t.fieldsTo p := by
  rw [fieldsTo_eq_take h, fieldsTo_eq_take h, hst]

theorem period_subset_period (h : p ≤ q) (t : DateTime) : q.period t ⊆ p.period t := by
  intro i hi
  exact ⟨hi.1, fieldsTo_congr_of_le h hi.2⟩

theorem roundDown_le_roundDown (h : p ≤ q) (hi : InCalendar i) :
    p.roundDown i ≤ q.roundDown i := by
  have hmem := period_subset_period h _ (isLeast_roundDown q hi).1
  exact (isLeast_roundDown p hi).2 hmem

theorem roundUp_le_roundUp (h : p ≤ q) (hi : InCalendar i) : q.roundUp i ≤ p.roundUp i := by
  have hmem := period_subset_period h _ (isGreatest_roundUp q hi).1
  exact (isGreatest_roundUp p hi).2 hmem

/-! ## One rounding after another -/

/-- Before a rounding at a coarser precision, a finer one has no effect. -/
theorem round_round_of_le (h : p ≤ q) (edge edge' : Edge) (i : Int) :
    p.round edge (q.round edge' i) = p.round edge i := by
  by_cases hi : InCalendar i
  · have hfields : (ofInstant (q.round edge' i)).fieldsTo p = (ofInstant i).fieldsTo p :=
      fieldsTo_congr_of_le h (fieldsTo_round hi)
    exact round_congr (inCalendar_round hi) hi hfields
  · rw [round_of_not_inCalendar hi]

/-- After a rounding at a coarser precision, a finer one in the same direction has no effect. -/
theorem round_round_of_ge (h : p ≤ q) (edge : Edge) (i : Int) :
    q.round edge (p.round edge i) = p.round edge i := by
  by_cases hi : InCalendar i
  · have hend : InCalendar (p.round edge i) := inCalendar_round hi
    have hsame : p.round edge (p.round edge i) = p.round edge i := round_round p edge edge i
    -- The finer period lies inside the coarser one, which ends here already.
    cases edge with
    | lower =>
      have hle := roundDown_le_roundDown h hend
      rw [roundDown, hsame] at hle
      exact Int.le_antisymm (roundDown_le hend) hle
    | upper =>
      have hge := roundUp_le_roundUp h hend
      rw [roundUp, roundUp, hsame] at hge
      exact Int.le_antisymm hge (le_roundUp hend)
  · rw [round_of_not_inCalendar hi, round_of_not_inCalendar hi]

/-- Two roundings in one direction are one, at the coarser precision. -/
theorem round_round_eq_coarser (p q : Precision) (edge : Edge) (i : Int) :
    p.round edge (q.round edge i) = (p.coarser q).round edge i := by
  rcases le_or_ge p q with h | h
  · rw [coarser_eq_left h, round_round_of_le h]
  · rw [coarser_eq_right h, round_round_of_ge h]

/-- **Roundings at two precisions compose.** The rounding at the coarser precision decides if it
comes last, whatever the directions, and if it comes first, provided that the directions are the
same. So roundings in one direction commute, and both are the rounding at the coarser precision.
Inside the calendar the period of the finer precision lies in that of the coarser one. -/
theorem roundings_compose :
    (∀ p q : Precision, p ≤ q →
      (∀ (i : Int) (edge edge' : Edge), p.round edge (q.round edge' i) = p.round edge i) ∧
      (∀ (i : Int) (edge : Edge), q.round edge (p.round edge i) = p.round edge i) ∧
      (∀ i : Int, InCalendar i →
        p.roundDown i ≤ q.roundDown i ∧ q.roundDown i ≤ i ∧
          i ≤ q.roundUp i ∧ q.roundUp i ≤ p.roundUp i)) ∧
    (∀ (p q : Precision) (edge : Edge) (i : Int),
      p.round edge (q.round edge i) = q.round edge (p.round edge i) ∧
      p.round edge (q.round edge i) = (p.coarser q).round edge i) := by
  constructor
  · intro p q h
    refine ⟨fun i edge edge' => round_round_of_le h edge edge' i,
      fun i edge => round_round_of_ge h edge i, ?_⟩
    intro i hi
    exact ⟨roundDown_le_roundDown h hi, roundDown_le hi, le_roundUp hi, roundUp_le_roundUp h hi⟩
  · intro p q edge i
    refine ⟨?_, round_round_eq_coarser p q edge i⟩
    rw [round_round_eq_coarser, round_round_eq_coarser, coarser_comm]

/-- The last instant of the 31st of January is in the same January as its noon, and the first
instant of that January is the first one of a day. -/
theorem roundings_compose_january :
    month ≤ day ∧ InCalendar 1296475200000 ∧
      month.round .lower (day.round .upper 1296475200000) = month.round .lower 1296475200000 ∧
      day.round .lower (month.round .lower 1296475200000) = month.round .lower 1296475200000 ∧
      month.roundDown 1296475200000 ≤ day.roundDown 1296475200000 := by
  have hle : month ≤ day := by decide
  have hin : InCalendar 1296475200000 := by decide
  obtain ⟨hfirst, hlast, hnest⟩ := roundings_compose.1 month day hle
  exact ⟨hle, hin, hfirst _ _ _, hlast _ _, (hnest _ hin).1⟩

end DateSpan.Precision

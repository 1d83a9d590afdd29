import Mathlib.Data.Int.Order.Basic
import Mathlib.Data.List.Lex
import DateSpan.Calendar.DateTime

/-!
# The order of dates is the order of their fields

Instants are compared as numbers, dates by their fields, from the year down. For valid
dates the two orders are one:

    toInstant_lt_iff : s.toInstant < t.toInstant ↔ List.Lex (· < ·) s.fields t.fields

A date splits into its day and the time on it. The day is the mixed-radix part, with months
and years of different lengths: `dayNumber_lt` compares days by year, month and day. The time
of day has fixed radices, so there the comparison is plain arithmetic.
-/

namespace DateSpan

namespace Calendar

/-! ## Places in a row of intervals -/

theorem total_take_succ {lengths : List Nat} {i : Nat} (hi : i < lengths.length) :
    total (lengths.take (i + 1)) = total (lengths.take i) + lengths[i] := by
  induction lengths generalizing i with
  | nil => simp at hi
  | cons l ls ih =>
    rcases i with _ | i
    · simp
    · have h := ih (by simpa using hi)
      simp only [List.take_succ_cons, total_cons, List.getElem_cons_succ]
      omega

theorem total_take_mono (lengths : List Nat) {i j : Nat} (h : i ≤ j) :
    total (lengths.take i) ≤ total (lengths.take j) := by
  induction lengths generalizing i j with
  | nil => simp
  | cons l ls ih =>
    rcases i with _ | i
    · simp
    · obtain ⟨j, rfl⟩ : ∃ k, j = k + 1 := ⟨j - 1, by omega⟩
      have := ih (show i ≤ j by omega)
      simp only [List.take_succ_cons, total_cons]
      omega

/-- A point of an interval comes before every point of a later one. -/
theorem offset_lt_offset {lengths : List Nat} {i j r s : Nat} (hi : i < lengths.length)
    (hr : r < lengths[i]) (hij : i < j) : offset lengths i r < offset lengths j s := by
  -- The end of interval `i` is at or before the start of interval `j`.
  have hs := total_take_succ hi
  have hm := total_take_mono lengths (show i + 1 ≤ j from hij)
  simp only [offset]
  omega

end Calendar

namespace DateTime

open Calendar

/-! ## Days -/

/-- A valid date's month and day, counted from `0`, are an interval of its year and a point
of that interval. -/
theorem day_lt_monthLength {t : DateTime} (h : t.Valid) :
    ∃ hi : t.month - 1 < (monthLengths t.year).length,
      t.day - 1 < (monthLengths t.year)[t.month - 1] := by
  have hm := h.month_pos
  have hm' := h.month_le
  have hd := h.day_pos
  have hd' := h.day_le
  have hi : t.month - 1 < 12 := by omega
  rw [show t.month = t.month - 1 + 1 by omega, monthLength_succ hi] at hd'
  exact ⟨hi, by omega⟩

theorem dayNumber_lt_of_year_lt {s t : DateTime} (hs : s.Valid) (h : s.year < t.year) :
    s.dayNumber < t.dayNumber := by
  have hl := offset_lt_yearLength hs
  have hy := yearStart_succ s.year
  have hm := yearStart_mono (show s.year + 1 ≤ t.year from h)
  simp only [dayNumber]
  omega

theorem dayNumber_lt_of_month_lt {s t : DateTime} (hs : s.Valid) (hy : s.year = t.year)
    (h : s.month < t.month) : s.dayNumber < t.dayNumber := by
  obtain ⟨hi, hr⟩ := day_lt_monthLength hs
  have hp := hs.month_pos
  have hlt := offset_lt_offset (s := t.day - 1) hi hr (show s.month - 1 < t.month - 1 by omega)
  simp only [dayNumber, ← hy]
  omega

theorem dayNumber_lt_of_day_lt {s t : DateTime} (hs : s.Valid) (hy : s.year = t.year)
    (hm : s.month = t.month) (h : s.day < t.day) : s.dayNumber < t.dayNumber := by
  have hp := hs.day_pos
  simp only [dayNumber, offset, ← hy, ← hm]
  omega

/-- An earlier day is earlier at any time of day. -/
theorem toInstant_lt_of_dayNumber_lt {s t : DateTime} (hs : s.Valid)
    (h : s.dayNumber < t.dayNumber) : s.toInstant < t.toInstant := by
  have hl := timeOfDay_lt hs
  simp only [toInstant, dayLength] at *
  omega

/-! ## Dates -/

/-- Field by field, the first difference decides. Down to the day it decides the day, after
that the time on it. -/
theorem toInstant_lt_of_lex {s t : DateTime} (hs : s.Valid)
    (h : List.Lex (· < ·) s.fields t.fields) : s.toInstant < t.toInstant := by
  have hi := hs.minute_lt
  have hc := hs.second_lt
  have hl := hs.milli_lt
  simp only [fields, List.cons_lex_cons_iff, List.not_lex_nil, or_false, and_false,
    Int.natCast_inj, Int.ofNat_lt] at h
  -- Whatever differs first, the day decides, or the days agree and the times decide.
  rcases h with hy | ⟨hy, hm | ⟨hm, hd | ⟨hd, htime⟩⟩⟩
  · exact toInstant_lt_of_dayNumber_lt hs (dayNumber_lt_of_year_lt hs hy)
  · exact toInstant_lt_of_dayNumber_lt hs (dayNumber_lt_of_month_lt hs hy hm)
  · exact toInstant_lt_of_dayNumber_lt hs (dayNumber_lt_of_day_lt hs hy hm hd)
  · have hday : s.dayNumber = t.dayNumber := by simp only [dayNumber, hy, hm, hd]
    simp only [toInstant, timeOfDay, hday]
    omega

theorem fields_injective {s t : DateTime} (h : s.fields = t.fields) : s = t := by
  rcases s with ⟨y, mo, d, hh, mi, se, ms⟩
  rcases t with ⟨y', mo', d', hh', mi', se', ms'⟩
  simpa [fields, Int.natCast_inj] using h

/-- **Instants are ordered as their calendar fields are.** -/
theorem toInstant_lt_iff {s t : DateTime} (hs : s.Valid) (ht : t.Valid) :
    s.toInstant < t.toInstant ↔ List.Lex (· < ·) s.fields t.fields := by
  refine ⟨?_, toInstant_lt_of_lex hs⟩
  intro h
  -- The order of fields is total, so only the other two cases are left to refute.
  rcases trichotomous_of (List.Lex (· < ·)) s.fields t.fields with lt | eq | gt
  · exact lt
  · rw [fields_injective eq] at h
    omega
  · have := toInstant_lt_of_lex ht gt
    omega

end DateTime

end DateSpan

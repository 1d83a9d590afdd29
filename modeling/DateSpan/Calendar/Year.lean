/-!
# Years of the proleptic Gregorian calendar

Days are counted from 1970-01-01, day `0`, and run on without a gap in both
directions; years are astronomical, so the year before `1` is `0`.

`yearStart` numbers the first day of each year, and `yearOf` finds the year a
day falls in. The two statements that pin `yearOf` down are
`yearStart_yearOf_le` and `lt_yearStart_yearOf_succ`: every day lies between
the start of its year and the start of the next one.
-/

namespace DateSpan.Calendar

/-- Every fourth year is leap, save the centuries that 400 does not divide. -/
def IsLeap (year : Int) : Prop := year % 4 = 0 ∧ (year % 100 ≠ 0 ∨ year % 400 = 0)

instance (year : Int) : Decidable (IsLeap year) :=
  inferInstanceAs (Decidable (year % 4 = 0 ∧ (year % 100 ≠ 0 ∨ year % 400 = 0)))

def yearLength (year : Int) : Nat := if IsLeap year then 366 else 365

/-- The number of a year's first day: 365 days for each year since 1970, and one
more for each leap year among them. -/
def yearStart (year : Int) : Int :=
  365 * (year - 1970) + (year - 1) / 4 - (year - 1) / 100 + (year - 1) / 400 - 477

/-- The year a day falls in. 400 years are 146097 days, so dividing by their mean
length misses by one year at most, and one comparison on either side settles it. -/
def yearOf (day : Int) : Int :=
  let guess := 1970 + 400 * day / 146097
  if day < yearStart guess then guess - 1
  else if yearStart (guess + 1) ≤ day then guess + 1
  else guess

theorem yearStart_succ (year : Int) : yearStart (year + 1) = yearStart year + yearLength year := by
  by_cases h : IsLeap year <;> simp only [yearLength, h, if_true, if_false] <;>
    unfold yearStart IsLeap at * <;> omega

theorem yearStart_mono {a b : Int} (h : a ≤ b) : yearStart a ≤ yearStart b := by
  unfold yearStart; omega

theorem yearStart_yearOf_le (day : Int) : yearStart (yearOf day) ≤ day := by
  simp only [yearOf]
  split
  · unfold yearStart at *; omega
  · split
    · assumption
    · omega

theorem lt_yearStart_yearOf_succ (day : Int) : day < yearStart (yearOf day + 1) := by
  simp only [yearOf]
  split
  · rw [Int.sub_add_cancel]; assumption
  · split
    · unfold yearStart at *; omega
    · omega

/-- The year of a day is the only one it lies in. -/
theorem yearOf_eq {day year : Int} (h : yearStart year ≤ day) (h' : day < yearStart (year + 1)) :
    yearOf day = year := by
  have hl := yearStart_yearOf_le day
  have hr := lt_yearStart_yearOf_succ day
  rcases Int.lt_trichotomy (yearOf day) year with lt | eq | gt
  · have := yearStart_mono (show yearOf day + 1 ≤ year by omega); omega
  · exact eq
  · have := yearStart_mono (show year + 1 ≤ yearOf day by omega); omega

end DateSpan.Calendar

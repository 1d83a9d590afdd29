import DateSpan.Calendar.Month

/-!
# Dates with a time of day

An instant is an `Int`: milliseconds since 1970-01-01T00:00:00Z, with no leap
seconds. A `DateTime` names one by its seven calendar fields.

`DateTime.toInstant` and `DateTime.ofInstant` are inverse to each other between
the instants of the calendar (`InCalendar`) and the `Valid` dates: that is
`toInstant_ofInstant`, `ofInstant_toInstant` and `valid_ofInstant`.
-/

namespace DateSpan

namespace Calendar

def firstYear : Int := -262143

def lastYear : Int := 262142

/-- The first millisecond of the first year. -/
def earliest : Int := -8334601228800000

/-- The last millisecond of the last year. -/
def latest : Int := 8210266876799999

def dayLength : Nat := 86400000

end Calendar

open Calendar

/-- An instant that a date of the calendar names. -/
def InCalendar (instant : Int) : Prop := earliest ≤ instant ∧ instant ≤ latest

instance (instant : Int) : Decidable (InCalendar instant) :=
  inferInstanceAs (Decidable (earliest ≤ instant ∧ instant ≤ latest))

/-- A date and a time of day, in calendar fields. -/
structure DateTime where
  year : Int
  month : Nat
  day : Nat
  hour : Nat
  minute : Nat
  second : Nat
  milli : Nat
deriving DecidableEq, Repr

namespace DateTime

/-- The date of the instant `0`. -/
def epoch : DateTime := ⟨1970, 1, 1, 0, 0, 0, 0⟩

/-- The fields name a day of the calendar and a time on it. -/
structure Valid (t : DateTime) : Prop where
  year_ge : firstYear ≤ t.year
  year_le : t.year ≤ lastYear
  month_pos : 1 ≤ t.month
  month_le : t.month ≤ 12
  day_pos : 1 ≤ t.day
  day_le : t.day ≤ monthLength t.year t.month
  hour_lt : t.hour < 24
  minute_lt : t.minute < 60
  second_lt : t.second < 60
  milli_lt : t.milli < 1000

instance (t : DateTime) : Decidable t.Valid :=
  decidable_of_iff
    (firstYear ≤ t.year ∧ t.year ≤ lastYear ∧ 1 ≤ t.month ∧ t.month ≤ 12 ∧ 1 ≤ t.day ∧
      t.day ≤ monthLength t.year t.month ∧ t.hour < 24 ∧ t.minute < 60 ∧ t.second < 60 ∧
      t.milli < 1000)
    ⟨fun ⟨a, b, c, d, e, f, g, h, i, j⟩ => ⟨a, b, c, d, e, f, g, h, i, j⟩,
      fun ⟨a, b, c, d, e, f, g, h, i, j⟩ => ⟨a, b, c, d, e, f, g, h, i, j⟩⟩

/-- The fields from the year down, as one list: comparing such lists
lexicographically compares the dates. -/
def fields (t : DateTime) : List Int :=
  [t.year, t.month, t.day, t.hour, t.minute, t.second, t.milli]

/-- The number of the day, from 1970-01-01. -/
def dayNumber (t : DateTime) : Int :=
  yearStart t.year + offset (monthLengths t.year) (t.month - 1) (t.day - 1)

def timeOfDay (t : DateTime) : Nat :=
  ((t.hour * 60 + t.minute) * 60 + t.second) * 1000 + t.milli

/-- The instant a date names. -/
def toInstant (t : DateTime) : Int := t.dayNumber * dayLength + t.timeOfDay

/-- The date of a given day at a given number of milliseconds after midnight. -/
def ofDayTime (day : Int) (time : Nat) : DateTime :=
  let year := yearOf day
  let place := locate (monthLengths year) (day - yearStart year).toNat
  { year
    month := place.1 + 1
    day := place.2 + 1
    hour := time / 3600000
    minute := time / 60000 % 60
    second := time / 1000 % 60
    milli := time % 1000 }

def ofInstant (instant : Int) : DateTime :=
  ofDayTime (instant / dayLength) (instant % dayLength).toNat

def ofInstant? (instant : Int) : Option DateTime :=
  if InCalendar instant then some (ofInstant instant) else none

/-- The instant that the fields name, if they are a date of the calendar. -/
def toInstant? (t : DateTime) : Option Int := if t.Valid then some t.toInstant else none

theorem timeOfDay_ofDayTime (day : Int) (time : Nat) : (ofDayTime day time).timeOfDay = time := by
  simp only [timeOfDay, ofDayTime]; omega

/-- A day of its year comes before the year's last. -/
theorem toNat_sub_yearStart_lt (day : Int) :
    (day - yearStart (yearOf day)).toNat < total (monthLengths (yearOf day)) := by
  have := lt_yearStart_yearOf_succ day
  have := yearStart_yearOf_le day
  have := yearStart_succ (yearOf day)
  rw [total_monthLengths]; omega

theorem dayNumber_ofDayTime (day : Int) (time : Nat) : (ofDayTime day time).dayNumber = day := by
  obtain ⟨_, _, ho⟩ := locate_spec (toNat_sub_yearStart_lt day)
  have := yearStart_yearOf_le day
  simp only [dayNumber, ofDayTime, Nat.add_sub_cancel, ho]; omega

theorem toInstant_ofInstant (instant : Int) : (ofInstant instant).toInstant = instant := by
  simp only [toInstant, ofInstant, dayNumber_ofDayTime, timeOfDay_ofDayTime, dayLength]; omega

/-- Every day of the calendar's years, and no other, has its midnight in the calendar. -/
theorem inCalendar_iff (day : Int) (time : Nat) (h : time < dayLength) :
    InCalendar (day * dayLength + time) ↔
      yearStart firstYear ≤ day ∧ day < yearStart (lastYear + 1) := by
  have hf : yearStart firstYear = -96465292 := by decide
  have hl : yearStart (lastYear + 1) = 95026237 := by decide
  simp only [InCalendar, hf, hl, earliest, latest, dayLength] at *; omega

theorem valid_ofInstant {instant : Int} (h : InCalendar instant) : (ofInstant instant).Valid := by
  have hpos : 0 ≤ instant % dayLength := Int.emod_nonneg _ (by decide)
  have htime : (instant % dayLength).toNat < dayLength := by
    have := Int.emod_lt_of_pos instant (show (0 : Int) < dayLength by decide); omega
  have hd : instant / dayLength * dayLength + (instant % dayLength).toNat = instant := by
    rw [Int.toNat_of_nonneg hpos, Int.ediv_mul_add_emod]
  rw [← hd, inCalendar_iff _ _ htime] at h
  obtain ⟨hi, hr, _⟩ := locate_spec (toNat_sub_yearStart_lt (instant / dayLength))
  have hle := yearStart_yearOf_le (instant / dayLength)
  have hlt := lt_yearStart_yearOf_succ (instant / dayLength)
  simp only [length_monthLengths] at hi
  constructor <;> simp only [ofInstant, ofDayTime]
  · apply Int.not_lt.1
    intro hy
    have := yearStart_mono (show yearOf (instant / dayLength) + 1 ≤ firstYear by omega); omega
  · apply Int.not_lt.1
    intro hy
    have := yearStart_mono (show lastYear + 1 ≤ yearOf (instant / dayLength) by omega); omega
  · omega
  · omega
  · omega
  · rw [monthLength_succ hi]; omega
  · have : (instant % dayLength).toNat < 86400000 := htime
    omega
  · omega
  · omega
  · omega

theorem timeOfDay_lt {t : DateTime} (h : t.Valid) : t.timeOfDay < dayLength := by
  have := h.hour_lt; have := h.minute_lt; have := h.second_lt; have := h.milli_lt
  simp only [timeOfDay, dayLength]; omega

/-- The month and the day of a valid date, counted from `0`, are a place in its year. -/
theorem locate_dayOfYear {t : DateTime} (h : t.Valid) :
    locate (monthLengths t.year) (offset (monthLengths t.year) (t.month - 1) (t.day - 1)) =
      (t.month - 1, t.day - 1) := by
  have hm := h.month_pos; have hm' := h.month_le
  have hd := h.day_pos; have hd' := h.day_le
  have hi : t.month - 1 < 12 := by omega
  rw [show t.month = t.month - 1 + 1 by omega, monthLength_succ hi] at hd'
  exact locate_offset hi (by omega)

theorem offset_lt_yearLength {t : DateTime} (h : t.Valid) :
    offset (monthLengths t.year) (t.month - 1) (t.day - 1) < yearLength t.year := by
  have hm := h.month_pos; have hm' := h.month_le
  have hd := h.day_pos; have hd' := h.day_le
  have hi : t.month - 1 < 12 := by omega
  rw [show t.month = t.month - 1 + 1 by omega, monthLength_succ hi] at hd'
  rw [← total_monthLengths]
  exact offset_lt_sum hi (by omega)

theorem yearOf_dayNumber {t : DateTime} (h : t.Valid) : yearOf t.dayNumber = t.year := by
  have := offset_lt_yearLength h
  have := yearStart_succ t.year
  apply yearOf_eq <;> simp only [dayNumber] <;> omega

theorem inCalendar_toInstant {t : DateTime} (h : t.Valid) : InCalendar t.toInstant := by
  have := offset_lt_yearLength h
  have := yearStart_succ t.year
  have := yearStart_mono h.year_ge
  have := yearStart_mono (show t.year + 1 ≤ lastYear + 1 by have := h.year_le; omega)
  rw [toInstant, inCalendar_iff _ _ (timeOfDay_lt h)]
  simp only [dayNumber]; omega

theorem ofInstant_toInstant {t : DateTime} (h : t.Valid) : ofInstant t.toInstant = t := by
  have htime := timeOfDay_lt h
  have hday : t.toInstant / dayLength = t.dayNumber := by
    simp only [toInstant, dayLength] at *; omega
  have hrest : (t.toInstant % dayLength).toNat = t.timeOfDay := by
    simp only [toInstant, dayLength] at *; omega
  have hplace : (t.dayNumber - yearStart t.year).toNat =
      offset (monthLengths t.year) (t.month - 1) (t.day - 1) := by
    simp only [dayNumber]; omega
  have := h.month_pos; have := h.day_pos
  have := h.hour_lt; have := h.minute_lt; have := h.second_lt; have := h.milli_lt
  simp only [ofInstant, hday, hrest, ofDayTime, yearOf_dayNumber h, hplace, locate_dayOfYear h]
  rcases t with ⟨y, mo, d, hh, mi, s, ms⟩
  simp only [timeOfDay, mk.injEq] at *
  refine ⟨trivial, ?_, ?_, ?_, ?_, ?_, ?_⟩ <;> omega

end DateTime

end DateSpan

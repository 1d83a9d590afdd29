import Mathlib
import DateSpan.Proofs.Rounding

/-!
# Periods tile the calendar

The periods of a precision lie end to end from the first millisecond of the calendar to its last.
A month is as long as it is in the calendar, and a year is as long as the Gregorian rule says,
which is written down here once more as it is taught. Rounding counts neither days nor years; it
sets fields, and the ends of a period are apart by its length all the same:

    roundUp_sub_roundDown : p.roundUp i - p.roundDown i + 1 = p.periodLength (.ofInstant i)

From the day down the lengths are fixed, and a period is a block of the count of milliseconds,
before the epoch as well as after it: `roundDown_eq_sub_emod`.
-/

namespace DateSpan

namespace Calendar

/-! ## The Gregorian rules -/

/-- Every fourth year is leap, except for the centuries that are not divisible by 400. -/
def FollowsLeapRule (year : Int) : Prop := 4 ∣ year ∧ (¬ 100 ∣ year ∨ 400 ∣ year)

instance (year : Int) : Decidable (FollowsLeapRule year) :=
  inferInstanceAs (Decidable (4 ∣ year ∧ (¬ 100 ∣ year ∨ 400 ∣ year)))

def yearDays (year : Int) : Nat := if FollowsLeapRule year then 366 else 365

theorem isLeap_iff {year : Int} : IsLeap year ↔ FollowsLeapRule year := by
  unfold IsLeap FollowsLeapRule
  omega

theorem yearLength_eq_yearDays (year : Int) : yearLength year = yearDays year := by
  simp only [yearLength, yearDays, isLeap_iff]

/-- The last day of December ends the year. -/
theorem offset_december (year : Int) :
    offset (monthLengths year) 11 30 + 1 = yearLength year := by
  by_cases h : IsLeap year <;> simp [offset, monthLengths, yearLength, h]

end Calendar

namespace Precision

open Calendar DateTime

variable {p : Precision} {i j : Int}

/-! ## Lengths -/

/-- The number of milliseconds in the period of a date. -/
def periodLength (p : Precision) (t : DateTime) : Nat :=
  match p with
  | year => 86400000 * yearDays t.year
  | month => 86400000 * monthLength t.year t.month
  | day => 86400000
  | hour => 3600000
  | minute => 60000
  | second => 1000
  | millisecond => 1

/-- Down to the day a period begins at midnight. -/
theorem timeOfDay_floor (hp : p ≤ day) (t : DateTime) : (t.floor p).timeOfDay = 0 := by
  cases p <;> simp_all [floor, timeOfDay, le_def, rank]

/-- Down to the day a period ends with the last millisecond before midnight. -/
theorem timeOfDay_ceil (hp : p ≤ day) (t : DateTime) : (t.ceil p).timeOfDay = 86399999 := by
  cases p <;> simp_all [ceil, timeOfDay, le_def, rank]

/-- From the day down a period stays within one day. -/
theorem dayNumber_floor (hp : day ≤ p) (t : DateTime) : (t.floor p).dayNumber = t.dayNumber := by
  cases p <;> simp_all [floor, dayNumber, le_def, rank]

theorem dayNumber_ceil (hp : day ≤ p) (t : DateTime) : (t.ceil p).dayNumber = t.dayNumber := by
  cases p <;> simp_all [ceil, dayNumber, le_def, rank]

theorem dayNumber_year (t : DateTime) :
    (t.ceil year).dayNumber - (t.floor year).dayNumber + 1 = yearDays t.year := by
  have hlast := offset_december t.year
  rw [yearLength_eq_yearDays] at hlast
  have hceil : (t.ceil year).dayNumber =
      yearStart t.year + offset (monthLengths t.year) 11 30 := rfl
  have hfloor : (t.floor year).dayNumber = yearStart t.year := Int.add_zero _
  omega

theorem dayNumber_month {t : DateTime} (ht : t.Valid) :
    (t.ceil month).dayNumber - (t.floor month).dayNumber + 1 = monthLength t.year t.month := by
  have hpos : 28 ≤ monthLength t.year t.month := monthLength_ge ht.month_pos ht.month_le
  have hceil : (t.ceil month).dayNumber = yearStart t.year +
      offset (monthLengths t.year) (t.month - 1) (monthLength t.year t.month - 1) := rfl
  have hfloor : (t.floor month).dayNumber = yearStart t.year +
      offset (monthLengths t.year) (t.month - 1) 0 := rfl
  simp only [offset] at hceil hfloor
  omega

/-- Within a day a period is given by the fields of its time. -/
theorem timeOfDay_ceil_sub_floor (hp : day ≤ p) (t : DateTime) :
    (t.floor p).timeOfDay % p.periodLength t = 0 ∧
      (t.ceil p).timeOfDay + 1 = (t.floor p).timeOfDay + p.periodLength t := by
  cases p <;> simp [ceil, floor, timeOfDay, periodLength, le_def, rank] at hp ⊢ <;> omega

theorem eq_year_or_eq_month_or_day_le (p : Precision) : p = year ∨ p = month ∨ day ≤ p := by
  cases p <;> decide

/-- Down to the day whole days lie between the ends of a period, from there on less than a day. -/
theorem ceil_sub_floor (p : Precision) {t : DateTime} (ht : t.Valid) :
    (t.ceil p).toInstant - (t.floor p).toInstant + 1 = p.periodLength t := by
  rcases eq_year_or_eq_month_or_day_le p with rfl | rfl | hp
  · have hdays := dayNumber_year t
    rw [toInstant, toInstant, timeOfDay_floor (by decide), timeOfDay_ceil (by decide),
      periodLength, dayLength]
    omega
  · have hdays := dayNumber_month ht
    rw [toInstant, toInstant, timeOfDay_floor (by decide), timeOfDay_ceil (by decide),
      periodLength, dayLength]
    omega
  · obtain ⟨-, htime⟩ := timeOfDay_ceil_sub_floor hp t
    rw [toInstant, toInstant, dayNumber_floor hp, dayNumber_ceil hp]
    omega

theorem roundUp_sub_roundDown (h : InCalendar i) :
    p.roundUp i - p.roundDown i + 1 = p.periodLength (ofInstant i) := by
  rw [roundUp_eq p h, roundDown_eq p h, ceil_sub_floor p (valid_ofInstant h)]

/-- From the day down a period begins at a multiple of its length. -/
theorem floor_emod_periodLength (hp : day ≤ p) (t : DateTime) :
    (t.floor p).toInstant % p.periodLength t = 0 := by
  cases p with
  | year => exact absurd hp (by decide)
  | month => exact absurd hp (by decide)
  | _ =>
    obtain ⟨htime, -⟩ := timeOfDay_ceil_sub_floor hp t
    simp only [periodLength, toInstant, dayLength] at *
    omega

/-- From the day down rounding is division with a remainder. -/
theorem roundDown_eq_sub_emod (hp : day ≤ p) (h : InCalendar i) :
    p.roundDown i = i - i % p.periodLength (ofInstant i) := by
  have hstart := floor_emod_periodLength hp (ofInstant i)
  have hlength := roundUp_sub_roundDown (p := p) h
  have hle := roundDown_le (p := p) h
  have hge := le_roundUp (p := p) h
  rw [← roundDown_eq p h] at hstart
  generalize (p.periodLength (ofInstant i) : Int) = n at *
  obtain ⟨k, hk⟩ := Int.dvd_of_emod_eq_zero hstart
  -- The instant is less than one length after a multiple of it.
  have hrest : i % n = i - n * k := by
    rw [← Int.emod_eq_of_lt (show 0 ≤ i - n * k by omega) (show i - n * k < n by omega),
      Int.sub_mul_emod_self_left]
  omega

/-! ## End to end -/

/-- The instants that the periods of a precision begin with. -/
def starts (p : Precision) : Set Int := { i | InCalendar i ∧ p.roundDown i = i }

theorem roundDown_mem_starts (h : InCalendar i) : p.roundDown i ∈ p.starts :=
  ⟨inCalendar_round h, round_round p _ _ i⟩

/-- There is no gap: the instant after a period begins the next one. -/
theorem roundUp_add_one_mem_starts (h : InCalendar i) (hnext : InCalendar (p.roundUp i + 1)) :
    p.roundUp i + 1 ∈ p.starts := by
  have hge := le_roundUp (p := p) h
  have hfields : (ofInstant i).fieldsTo p ≠ (ofInstant (p.roundUp i + 1)).fieldsTo p := by
    intro heq
    have hin := (roundDown_le_and_le_roundUp_iff h hnext).2 heq.symm
    omega
  have hlt := roundUp_lt_roundDown h hnext (by omega) hfields
  have hle := roundDown_le (p := p) hnext
  exact ⟨hnext, by omega⟩

/-- Of two periods the one that begins first also ends first. -/
theorem roundUp_lt_of_mem_starts (hi : i ∈ p.starts) (hj : j ∈ p.starts) (h : i < j) :
    p.roundUp i < j := by
  obtain ⟨hin, hstart⟩ := hi
  obtain ⟨hin', hstart'⟩ := hj
  have hfields : (ofInstant i).fieldsTo p ≠ (ofInstant j).fieldsTo p := by
    intro heq
    have hround : p.roundDown i = p.roundDown j := round_congr hin hin' heq
    omega
  calc
    p.roundUp i < p.roundDown j := roundUp_lt_roundDown hin hin' (Int.le_of_lt h) hfields
    _ = j := hstart'

/-- There is no overlap. -/
theorem pairwiseDisjoint_starts (p : Precision) :
    p.starts.PairwiseDisjoint fun s => Set.Icc s (p.roundUp s) := by
  intro i hi j hj hne
  apply Set.disjoint_left.2
  rintro k ⟨hik, hki⟩ ⟨hjk, hkj⟩
  rcases Int.lt_or_gt_of_ne hne with h | h
  · have hlt := roundUp_lt_of_mem_starts hi hj h
    omega
  · have hlt := roundUp_lt_of_mem_starts hj hi h
    omega

theorem iUnion_periods (p : Precision) :
    (⋃ s ∈ p.starts, Set.Icc s (p.roundUp s)) = Set.Icc earliest latest := by
  ext i
  simp only [Set.mem_iUnion, Set.mem_Icc, exists_prop]
  constructor
  · rintro ⟨s, ⟨hs, -⟩, hle, hge⟩
    have hend : InCalendar (p.roundUp s) := inCalendar_round hs
    exact ⟨Int.le_trans hs.1 hle, Int.le_trans hge hend.2⟩
  · intro h
    refine ⟨p.roundDown i, roundDown_mem_starts h, roundDown_le h, ?_⟩
    rw [roundUp, roundDown, round_round]
    exact le_roundUp h

/-- **The periods of a precision tile the calendar, and each has its Gregorian length.** From the
day down they are blocks of the count of milliseconds. The instant after a period is the start of
the next one, or the calendar is over; the first period begins with the first millisecond of the
calendar and the last one ends with its last. Together the periods are the calendar, no two of
them share an instant, and both roundings keep the order of instants. -/
theorem periods_tile (p : Precision) :
    (∀ y, IsLeap y ↔ FollowsLeapRule y) ∧
    (∀ i, InCalendar i →
      p.roundUp i - p.roundDown i + 1 = p.periodLength (ofInstant i) ∧
      (day ≤ p → p.roundDown i = i - i % p.periodLength (ofInstant i)) ∧
      (¬ InCalendar (p.roundUp i + 1) ∨ p.roundUp i + 1 ∈ p.starts)) ∧
    (p.roundDown earliest = earliest ∧ p.roundUp latest = latest) ∧
    (⋃ s ∈ p.starts, Set.Icc s (p.roundUp s)) = Set.Icc earliest latest ∧
    (p.starts.PairwiseDisjoint fun s => Set.Icc s (p.roundUp s)) ∧
    (Monotone p.roundDown ∧ Monotone p.roundUp) := by
  refine ⟨fun y => isLeap_iff, ?_, ⟨?_, ?_⟩, iUnion_periods p, pairwiseDisjoint_starts p, ?_, ?_⟩
  · intro i hi
    refine ⟨roundUp_sub_roundDown hi, fun hp => roundDown_eq_sub_emod hp hi, ?_⟩
    rw [or_iff_not_imp_left, Classical.not_not]
    exact roundUp_add_one_mem_starts hi
  · have hin : InCalendar earliest := by decide
    exact Int.le_antisymm (roundDown_le hin) (inCalendar_round hin).1
  · have hin : InCalendar latest := by decide
    exact Int.le_antisymm (inCalendar_round hin).2 (le_roundUp hin)
  · intro i j h
    exact round_mono p .lower h
  · intro i j h
    exact round_mono p .upper h

/-- The year `0` is leap, and so 366 days long. -/
theorem periods_tile_yearZero :
    year.roundUp (-62162078400000) - year.roundDown (-62162078400000) + 1 = 31622400000 :=
  ((periods_tile year).2.1 _ (by decide)).1.trans (by decide)

end Precision

end DateSpan

import DateSpan.Calendar.DateTime
import DateSpan.Precision

/-!
# Rounding to a precision

All instants that agree in their calendar fields down to a precision form a
period of it. Rounding moves an instant to one end of its period: one after the
other, from coarse to fine, the fields finer than the precision take their least
or their greatest value. What they come to is `floor` or `ceil`.

Instants outside the calendar have no fields; they stay as they are. So would an
instant whose rounded fields are no date, but there is none: by `round_valid` the
rounded fields are a date again.
-/

namespace DateSpan

open Calendar

namespace DateTime

def fieldsTo (p : Precision) (t : DateTime) : List Int := t.fields.take (p.rank + 1)

/-- The last day of a month. Rounding does not ask the calendar for it. -/
def lastDay (year : Int) : Nat → Nat
  | 2 => if IsLeap year then 29 else 28
  | 4 | 6 | 9 | 11 => 30
  | _ => 31

/-- Moves one field to the end of its values. The last day is that of the month as
it stands, so the month has to be settled before. -/
def clamp (edge : Edge) (t : DateTime) (field : Precision) : DateTime :=
  match field, edge with
  | .year, _ => t
  | .month, .lower => { t with month := 1 }
  | .month, .upper => { t with month := 12 }
  | .day, .lower => { t with day := 1 }
  | .day, .upper => { t with day := lastDay t.year t.month }
  | .hour, .lower => { t with hour := 0 }
  | .hour, .upper => { t with hour := 23 }
  | .minute, .lower => { t with minute := 0 }
  | .minute, .upper => { t with minute := 59 }
  | .second, .lower => { t with second := 0 }
  | .second, .upper => { t with second := 59 }
  | .millisecond, .lower => { t with milli := 0 }
  | .millisecond, .upper => { t with milli := 999 }

/-- Clamps the fields finer than the precision, from coarse to fine. -/
def round (p : Precision) (edge : Edge) (t : DateTime) : DateTime :=
  (Precision.all.reverse.filter (p < ·)).foldl (clamp edge) t

/-- The first date that agrees with `t` down to the precision. -/
def floor (p : Precision) (t : DateTime) : DateTime where
  year := t.year
  month := if .month ≤ p then t.month else 1
  day := if .day ≤ p then t.day else 1
  hour := if .hour ≤ p then t.hour else 0
  minute := if .minute ≤ p then t.minute else 0
  second := if .second ≤ p then t.second else 0
  milli := if .millisecond ≤ p then t.milli else 0

/-- The last date that agrees with `t` down to the precision. Its day is the last
one of its month in the calendar, unless it is given. -/
def ceil (p : Precision) (t : DateTime) : DateTime :=
  let month := if .month ≤ p then t.month else 12
  { year := t.year
    month
    day := if .day ≤ p then t.day else monthLength t.year month
    hour := if .hour ≤ p then t.hour else 23
    minute := if .minute ≤ p then t.minute else 59
    second := if .second ≤ p then t.second else 59
    milli := if .millisecond ≤ p then t.milli else 999 }

/-- The rule for the last day is right for all months there are. -/
theorem lastDay_eq_monthLength {year : Int} {month : Nat} (h : 1 ≤ month) (h' : month ≤ 12) :
    lastDay year month = monthLength year month := by
  have hcases : month = 1 ∨ month = 2 ∨ month = 3 ∨ month = 4 ∨ month = 5 ∨ month = 6 ∨
      month = 7 ∨ month = 8 ∨ month = 9 ∨ month = 10 ∨ month = 11 ∨ month = 12 := by omega
  rcases hcases with rfl | rfl | rfl | rfl | rfl | rfl | rfl | rfl | rfl | rfl | rfl | rfl <;> rfl

theorem round_lower (p : Precision) (t : DateTime) : t.round p .lower = t.floor p := by
  cases p <;> rfl

theorem round_upper (p : Precision) {t : DateTime} (h : t.Valid) :
    t.round p .upper = t.ceil p := by
  cases p with
  | month =>
    -- Only here is the last day that of the date's own month.
    have hround : t.round .month .upper =
        { t.ceil .month with day := lastDay t.year t.month } := rfl
    rw [hround, lastDay_eq_monthLength h.month_pos h.month_le]
    rfl
  | _ => rfl

theorem floor_valid (p : Precision) {t : DateTime} (h : t.Valid) : (t.floor p).Valid := by
  obtain ⟨hy, hy', hm, hm', hd, hd', hh, hi, hs, hl⟩ := h
  have := @monthLength_ge t.year t.month hm hm'
  have := @monthLength_ge t.year 1 (by decide) (by decide)
  constructor <;> cases p <;> simp [floor, Precision.le_def, Precision.rank, *] <;> omega

theorem ceil_valid (p : Precision) {t : DateTime} (h : t.Valid) : (t.ceil p).Valid := by
  obtain ⟨hy, hy', hm, hm', hd, hd', hh, hi, hs, hl⟩ := h
  have := @monthLength_ge t.year t.month hm hm'
  have := @monthLength_ge t.year 12 (by decide) (by decide)
  constructor <;> cases p <;> simp [ceil, Precision.le_def, Precision.rank, *] <;> omega

theorem round_valid (p : Precision) (edge : Edge) {t : DateTime} (h : t.Valid) :
    (t.round p edge).Valid := by
  cases edge with
  | lower =>
    rw [round_lower]
    exact floor_valid p h
  | upper =>
    rw [round_upper p h]
    exact ceil_valid p h

/-- Rounded fields always name an instant. -/
theorem toInstant?_round (p : Precision) (edge : Edge) {t : DateTime} (h : t.Valid) :
    (t.round p edge).toInstant? = some (t.round p edge).toInstant :=
  if_pos (round_valid p edge h)

end DateTime

namespace Precision

/-- Moves an instant of the calendar to one end of its period. An instant whose
fields cannot be rounded stays where it is. -/
def round (p : Precision) (edge : Edge) (instant : Int) : Int :=
  match DateTime.ofInstant? instant with
  | some t => (t.round p edge).toInstant?.getD instant
  | none => instant

def roundDown (p : Precision) (instant : Int) : Int := p.round .lower instant

def roundUp (p : Precision) (instant : Int) : Int := p.round .upper instant

theorem round_of_inCalendar {p : Precision} {edge : Edge} {instant : Int}
    (h : InCalendar instant) :
    p.round edge instant = ((DateTime.ofInstant instant).round p edge).toInstant := by
  have ht := DateTime.valid_ofInstant h
  simp only [round, DateTime.ofInstant?, h, if_true, DateTime.toInstant?_round p edge ht,
    Option.getD_some]

theorem round_of_not_inCalendar {p : Precision} {edge : Edge} {instant : Int}
    (h : ¬ InCalendar instant) : p.round edge instant = instant := by
  simp only [round, DateTime.ofInstant?, h, if_false]

theorem inCalendar_round {p : Precision} {edge : Edge} {instant : Int} (h : InCalendar instant) :
    InCalendar (p.round edge instant) := by
  rw [round_of_inCalendar h]
  exact DateTime.inCalendar_toInstant (DateTime.round_valid p edge (DateTime.valid_ofInstant h))

end Precision

end DateSpan

import DateSpan.Precision.Rounding
import DateSpan.Proofs.Calendar.Order

/-!
# Instants count dates

The instants of the calendar and its dates are the same thing twice. `ofInstant?` and `toInstant`
are inverse to each other between them, and the order of instants is that of the fields:

    ofInstant?_eq_some_iff : ofInstant? i = some t ↔ t.Valid ∧ t.toInstant = i

The conversions divide by the lengths of days and years, and do not mention how dates follow each
other. That is `next`: the finest field that can counts on, and the fields finer than it start
over, with months as long as the Gregorian calendar has them. `toInstant_next` and
`ofInstant?_succ` say that the conversions count by this rule.
-/

namespace DateSpan

open Calendar

/-- Up to the end of a month there are the months before it and the month itself. -/
theorem Calendar.total_take_month (year : Int) {month : Nat} (h : 1 ≤ month) (h' : month ≤ 12) :
    total ((monthLengths year).take month) =
      total ((monthLengths year).take (month - 1)) + monthLength year month := by
  obtain ⟨i, rfl⟩ : ∃ i, month = i + 1 := ⟨month - 1, by omega⟩
  rw [monthLength_succ (by omega), Nat.add_sub_cancel]
  exact total_take_succ (show i < (monthLengths year).length by rw [length_monthLengths]; omega)

namespace DateTime

variable {t : DateTime} {i : Int}

/-! ## The date one millisecond later -/

/-- The midnight at the end of the day. -/
def nextDay (t : DateTime) : DateTime :=
  if t.day < lastDay t.year t.month then ⟨t.year, t.month, t.day + 1, 0, 0, 0, 0⟩
  else if t.month < 12 then ⟨t.year, t.month + 1, 1, 0, 0, 0, 0⟩
  else ⟨t.year + 1, 1, 1, 0, 0, 0, 0⟩

/-- The date one millisecond later. -/
def next (t : DateTime) : DateTime :=
  if t.milli < 999 then { t with milli := t.milli + 1 }
  else if t.second < 59 then { t with second := t.second + 1, milli := 0 }
  else if t.minute < 59 then { t with minute := t.minute + 1, second := 0, milli := 0 }
  else if t.hour < 23 then { t with hour := t.hour + 1, minute := 0, second := 0, milli := 0 }
  else t.nextDay

theorem timeOfDay_nextDay (t : DateTime) : t.nextDay.timeOfDay = 0 := by
  rw [nextDay]
  split
  · simp [timeOfDay]
  · split <;> simp [timeOfDay]

/-- The day after the last one of a month is the first of the next month, and the day after the
last one of December is the first of the next year. -/
theorem dayNumber_nextDay (h : t.Valid) : t.nextDay.dayNumber = t.dayNumber + 1 := by
  have hm := h.month_pos
  have hm' := h.month_le
  have hd := h.day_pos
  have hd' := h.day_le
  have hlast : lastDay t.year t.month = monthLength t.year t.month :=
    lastDay_eq_monthLength hm hm'
  rw [nextDay, hlast]
  split
  case isTrue =>
    simp only [dayNumber, offset]
    omega
  case isFalse hday =>
    have hmonth := total_take_month t.year hm hm'
    split
    case isTrue =>
      simp only [dayNumber, offset, Nat.add_sub_cancel]
      omega
    case isFalse hyear =>
      have htwelve : t.month = 12 := by omega
      have hwhole : (monthLengths t.year).take 12 = monthLengths t.year :=
        List.take_of_length_le (Nat.le_refl 12)
      have hnext := yearStart_succ t.year
      rw [htwelve] at hday hd' hmonth
      rw [hwhole, total_monthLengths] at hmonth
      simp only [dayNumber, offset, htwelve, List.take_zero, total_nil, Nat.sub_self]
      omega

/-- **The conversion counts.** One millisecond later is one more. -/
theorem toInstant_next (h : t.Valid) : t.next.toInstant = t.toInstant + 1 := by
  have hh := h.hour_lt
  have hi := h.minute_lt
  have hs := h.second_lt
  have hl := h.milli_lt
  -- A time that is not at the end of the day is on the same day.
  have hsame {u : DateTime} (hday : u.dayNumber = t.dayNumber)
      (htime : u.timeOfDay = t.timeOfDay + 1) : u.toInstant = t.toInstant + 1 := by
    simp only [toInstant, hday, htime]
    omega
  rw [next]
  iterate 4
    split
    · exact hsame rfl (by simp only [timeOfDay]; omega)
  · have hend : t.timeOfDay + 1 = dayLength := by
      simp only [timeOfDay, dayLength]
      omega
    simp only [toInstant, dayNumber_nextDay h, timeOfDay_nextDay, dayLength] at hend ⊢
    omega

theorem valid_nextDay (h : t.Valid) (hin : InCalendar t.nextDay.toInstant) : t.nextDay.Valid := by
  have hy := h.year_ge
  have hy' := h.year_le
  have hm := h.month_pos
  have hm' := h.month_le
  have hlast : lastDay t.year t.month = monthLength t.year t.month :=
    lastDay_eq_monthLength hm hm'
  rw [toInstant, timeOfDay_nextDay, inCalendar_iff _ 0 (by decide)] at hin
  rw [nextDay, hlast] at hin ⊢
  split
  case isTrue hday =>
    constructor <;> dsimp only <;> omega
  case isFalse hday =>
    rw [if_neg hday] at hin
    split
    case isTrue hmonth =>
      have hlen : 28 ≤ monthLength t.year (t.month + 1) :=
        monthLength_ge (Nat.le_add_left 1 _) hmonth
      constructor <;> dsimp only <;> omega
    case isFalse hmonth =>
      rw [if_neg hmonth] at hin
      -- The first day of the year after the last one is past the calendar.
      have hyear : t.year + 1 ≤ lastYear := by
        by_contra hout
        have hmono := yearStart_mono (show lastYear + 1 ≤ t.year + 1 by omega)
        simp only [dayNumber, offset, Nat.sub_self, List.take_zero, total_nil] at hin
        omega
      have hlen : 28 ≤ monthLength (t.year + 1) 1 := monthLength_ge (by decide) (by decide)
      constructor <;> dsimp only <;> omega

/-- The date one millisecond later is a date, unless the calendar ends before it. -/
theorem valid_next (h : t.Valid) (hin : InCalendar (t.toInstant + 1)) : t.next.Valid := by
  have hy := h.year_ge
  have hy' := h.year_le
  have hm := h.month_pos
  have hm' := h.month_le
  have hd := h.day_pos
  have hd' := h.day_le
  have hh := h.hour_lt
  have hi := h.minute_lt
  have hs := h.second_lt
  have hl := h.milli_lt
  rw [← toInstant_next h] at hin
  rw [next] at hin ⊢
  -- A time that is not at the end of the day is on the same day.
  iterate 4
    split
    · constructor <;> dsimp only <;> omega
  · simp only [*, if_false] at hin
    exact valid_nextDay h hin

/-! ## Both directions -/

/-- **The date of an instant is the one date that names it.** -/
theorem ofInstant?_eq_some_iff : ofInstant? i = some t ↔ t.Valid ∧ t.toInstant = i := by
  rw [ofInstant?, Option.ite_none_right_eq_some, Option.some.injEq]
  constructor
  · rintro ⟨hin, rfl⟩
    exact ⟨valid_ofInstant hin, toInstant_ofInstant i⟩
  · rintro ⟨ht, rfl⟩
    exact ⟨inCalendar_toInstant ht, ofInstant_toInstant ht⟩

theorem exists_ofInstant?_eq_some_iff : (∃ t, ofInstant? i = some t) ↔ InCalendar i := by
  simp [ofInstant?]

/-- **Dates follow each other by the rule of the calendar.** -/
theorem ofInstant?_succ (h : ofInstant? i = some t) (hin : InCalendar (i + 1)) :
    ofInstant? (i + 1) = some t.next := by
  obtain ⟨ht, rfl⟩ := ofInstant?_eq_some_iff.1 h
  exact ofInstant?_eq_some_iff.2 ⟨valid_next ht hin, toInstant_next ht⟩

/-- A date is valid if its fields are in their intervals, the day in that of its month. -/
theorem valid_iff : t.Valid ↔
    (-262143 ≤ t.year ∧ t.year ≤ 262142) ∧ (1 ≤ t.month ∧ t.month ≤ 12) ∧
      (1 ≤ t.day ∧ t.day ≤ lastDay t.year t.month) ∧
      t.hour < 24 ∧ t.minute < 60 ∧ t.second < 60 ∧ t.milli < 1000 := by
  constructor
  · intro h
    rw [lastDay_eq_monthLength h.month_pos h.month_le]
    exact ⟨⟨h.year_ge, h.year_le⟩, ⟨h.month_pos, h.month_le⟩, ⟨h.day_pos, h.day_le⟩,
      h.hour_lt, h.minute_lt, h.second_lt, h.milli_lt⟩
  · rintro ⟨⟨hy, hy'⟩, ⟨hm, hm'⟩, ⟨hd, hd'⟩, hh, hi, hs, hl⟩
    rw [lastDay_eq_monthLength hm hm'] at hd'
    exact ⟨hy, hy', hm, hm', hd, hd', hh, hi, hs, hl⟩

theorem lt_iff_lex_fields {s t : DateTime} {i j : Int} (hs : ofInstant? i = some s)
    (ht : ofInstant? j = some t) : i < j ↔ List.Lex (· < ·) s.fields t.fields := by
  obtain ⟨hs', rfl⟩ := ofInstant?_eq_some_iff.1 hs
  obtain ⟨ht', rfl⟩ := ofInstant?_eq_some_iff.1 ht
  exact toInstant_lt_iff hs' ht'

/-- **Instants and dates are in a bijection that keeps the order.** The instants between the ends of
the calendar have a date, and no others. The date of an instant is valid and names that instant, and
it is the only valid date that does; so every valid date, and no other, is that of an instant. Valid
are the fields that a clock can show on a day of the calendar's years. The earlier of two instants
is the one with the lexicographically smaller fields. And the dates are those of the Gregorian
calendar: they count on from the epoch, millisecond by millisecond, by its rule. -/
theorem instants_are_dates :
    (∀ i, (∃ t, ofInstant? i = some t) ↔ -8334601228800000 ≤ i ∧ i ≤ 8210266876799999) ∧
    (∀ i t, ofInstant? i = some t ↔ t.Valid ∧ t.toInstant = i) ∧
    (∀ t : DateTime, t.Valid ↔
      (-262143 ≤ t.year ∧ t.year ≤ 262142) ∧ (1 ≤ t.month ∧ t.month ≤ 12) ∧
        (1 ≤ t.day ∧ t.day ≤ lastDay t.year t.month) ∧
        t.hour < 24 ∧ t.minute < 60 ∧ t.second < 60 ∧ t.milli < 1000) ∧
    (∀ i j s t, ofInstant? i = some s → ofInstant? j = some t →
      (i < j ↔ List.Lex (· < ·) s.fields t.fields)) ∧
    ofInstant? 0 = some epoch ∧
    (∀ i t, ofInstant? i = some t → InCalendar (i + 1) → ofInstant? (i + 1) = some t.next) := by
  refine ⟨fun i => exists_ofInstant?_eq_some_iff, fun i t => ofInstant?_eq_some_iff,
    fun t => valid_iff, fun i j s t => lt_iff_lex_fields, ?_, fun i t => ofInstant?_succ⟩
  decide

/-- The last millisecond of the leap day in the year `0`, and the first one of March. -/
theorem instants_are_dates_leapDay :
    (DateTime.mk 0 2 29 23 59 59 999).Valid ∧
      ofInstant? (-62162035200000) = some ⟨0, 3, 1, 0, 0, 0, 0⟩ ∧
      List.Lex (· < ·) [0, 2, 29, 23, 59, 59, 999] ([0, 3, 1, 0, 0, 0, 0] : List Int) := by
  obtain ⟨-, hdate, -, horder, -, hnext⟩ := instants_are_dates
  have hleap : ofInstant? (-62162035200001) = some ⟨0, 2, 29, 23, 59, 59, 999⟩ := by decide
  have hmarch := hnext _ _ hleap (by decide)
  exact ⟨((hdate _ _).1 hleap).1, hmarch, (horder _ _ _ _ hleap hmarch).1 (by decide)⟩

end DateTime

end DateSpan

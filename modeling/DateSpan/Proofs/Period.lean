import Mathlib.Order.Bounds.Basic
import DateSpan.Precision.Rounding
import DateSpan.Proofs.Calendar.Order

/-!
# Periods and their ends

The period of a date at a precision is the set of all instants of the calendar that agree
with it from the year down to the precision. Rounding was defined field by field, without
periods; this file says that it finds their ends:

* `isLeast_period` and `isGreatest_period`: the rounded fields name the first and the last
  instant of the period.
* `roundDown_le_and_le_roundUp_iff`: an instant lies between the two ends exactly if its
  fields agree.

Both come from the order of the fields. Down to the precision the rounded fields are those of
the date; below it they are the least or the greatest that a valid date can have.
-/

namespace DateSpan

/-! ## Comparing lists of fields -/

/-- A difference within the first fields decides the order of all of them. -/
theorem lex_of_lex_take {a b : List Int} (n : Nat) (hl : a.length = b.length)
    (h : List.Lex (· < ·) (a.take n) (b.take n)) : List.Lex (· < ·) a b := by
  induction n generalizing a b with
  | zero => simp at h
  | succ n ih =>
    rcases a with _ | ⟨x, a⟩ <;> rcases b with _ | ⟨y, b⟩
    · simp at h
    · simp at hl
    · simp at hl
    · rw [List.take_succ_cons, List.take_succ_cons, List.cons_lex_cons_iff] at h
      rw [List.cons_lex_cons_iff]
      rcases h with h | ⟨rfl, h⟩
      · exact Or.inl h
      · exact Or.inr ⟨rfl, ih (by simpa using hl) h⟩

/-- Fields that are at most as great, one by one, are not greater together. -/
theorem not_lex_of_forall₂_le {a b : List Int} (h : List.Forall₂ (· ≤ ·) a b) :
    ¬ List.Lex (· < ·) b a := by
  induction h with
  | nil => exact List.not_lex_nil
  | cons hxy _ ih =>
    rw [List.cons_lex_cons_iff]
    intro h
    rcases h with hlt | ⟨rfl, hlex⟩
    · omega
    · exact ih hlex

namespace DateTime

open Calendar

theorem lex_of_lex_fieldsTo {p : Precision} {s t : DateTime}
    (h : List.Lex (· < ·) (s.fieldsTo p) (t.fieldsTo p)) :
    List.Lex (· < ·) s.fields t.fields :=
  lex_of_lex_take _ rfl h

/-! ## Rounded fields -/

@[simp] theorem fieldsTo_floor (p : Precision) (t : DateTime) :
    (t.floor p).fieldsTo p = t.fieldsTo p := by
  cases p <;> simp [fieldsTo, fields, floor, Precision.le_def, Precision.rank]

@[simp] theorem fieldsTo_ceil (p : Precision) (t : DateTime) :
    (t.ceil p).fieldsTo p = t.fieldsTo p := by
  cases p <;> simp [fieldsTo, fields, ceil, Precision.le_def, Precision.rank]

/-- Rounding leaves the fields down to the precision alone. -/
theorem fieldsTo_round (p : Precision) (edge : Edge) {t : DateTime} (h : t.Valid) :
    (t.round p edge).fieldsTo p = t.fieldsTo p := by
  cases edge with
  | lower => rw [round_lower, fieldsTo_floor]
  | upper => rw [round_upper p h, fieldsTo_ceil]

/-- Below the precision every date has fields at least as great as the rounded-down ones. -/
theorem floor_fields_le {p : Precision} {t u : DateTime} (hu : u.Valid)
    (h : u.fieldsTo p = t.fieldsTo p) :
    List.Forall₂ (· ≤ ·) (t.floor p).fields u.fields := by
  have hm := hu.month_pos
  have hd := hu.day_pos
  cases p <;>
    simp [fieldsTo, fields, floor, Precision.le_def, Precision.rank] at h ⊢ <;> omega

theorem monthLength_le (year : Int) (month : Nat) : monthLength year month ≤ 31 := by
  have hall : ∀ l ∈ monthLengths year, l ≤ 31 := by
    by_cases hl : IsLeap year <;> simp [monthLengths, hl]
  rw [monthLength]
  rcases h : (monthLengths year)[month - 1]? with _ | l
  · simp
  · exact hall l (List.mem_of_getElem? h)

/-- Below the precision every date has fields at most as great as the rounded-up ones. Only
at the month do they depend on the date: the last day is that of its own month. -/
theorem fields_le_ceil {p : Precision} {t u : DateTime} (hu : u.Valid)
    (h : u.fieldsTo p = t.fieldsTo p) :
    List.Forall₂ (· ≤ ·) u.fields (t.ceil p).fields := by
  obtain ⟨-, -, -, hm, -, hd, hh, hi, hs, hl⟩ := hu
  have hle := monthLength_le u.year u.month
  have hlast : monthLength t.year 12 = 31 := rfl
  cases p with
  | month =>
    simp [fieldsTo, fields, ceil, Precision.le_def, Precision.rank] at h ⊢
    have hmonth : u.month = t.month := by omega
    rw [h.1, hmonth] at hd
    omega
  | _ =>
    simp [fieldsTo, fields, ceil, Precision.le_def, Precision.rank] at h ⊢
    omega

/-! ## The period of a date -/

/-- A valid date lies between the two ends of a period exactly if it agrees down to the
precision. -/
theorem floor_le_and_le_ceil_iff {p : Precision} {t u : DateTime} (ht : t.Valid)
    (hu : u.Valid) :
    (t.floor p).toInstant ≤ u.toInstant ∧ u.toInstant ≤ (t.ceil p).toInstant ↔
      u.fieldsTo p = t.fieldsTo p := by
  have hf := floor_valid p ht
  have hc := ceil_valid p ht
  rw [← Int.not_lt, ← Int.not_lt, toInstant_lt_iff hu hf, toInstant_lt_iff hc hu]
  constructor
  · intro h
    obtain ⟨hlow, hhigh⟩ := h
    -- A difference down to the precision would put `u` before the first end or after the last.
    rcases trichotomous_of (List.Lex (· < ·)) (u.fieldsTo p) (t.fieldsTo p) with lt | eq | gt
    · rw [← fieldsTo_floor p t] at lt
      exact absurd (lex_of_lex_fieldsTo lt) hlow
    · exact eq
    · rw [← fieldsTo_ceil p t] at gt
      exact absurd (lex_of_lex_fieldsTo gt) hhigh
  · intro h
    constructor
    · apply not_lex_of_forall₂_le
      exact floor_fields_le hu h
    · apply not_lex_of_forall₂_le
      exact fields_le_ceil hu h

end DateTime

namespace Precision

open DateTime

/-- The instants of the calendar that agree with a date from the year down to a precision. -/
def period (p : Precision) (t : DateTime) : Set Int :=
  { i | InCalendar i ∧ (ofInstant i).fieldsTo p = t.fieldsTo p }

theorem mem_period_iff {p : Precision} {t : DateTime} (ht : t.Valid) {i : Int} :
    i ∈ p.period t ↔
      InCalendar i ∧ (t.floor p).toInstant ≤ i ∧ i ≤ (t.ceil p).toInstant := by
  apply and_congr_right
  intro hi
  rw [← floor_le_and_le_ceil_iff ht (valid_ofInstant hi), toInstant_ofInstant]

theorem toInstant_mem_period {p : Precision} {t u : DateTime} (hu : u.Valid)
    (h : u.fieldsTo p = t.fieldsTo p) : u.toInstant ∈ p.period t := by
  refine ⟨inCalendar_toInstant hu, ?_⟩
  rw [ofInstant_toInstant hu, h]

/-- The rounded-down fields name the first instant of the period. -/
theorem isLeast_period {p : Precision} {t : DateTime} (ht : t.Valid) :
    IsLeast (p.period t) (t.floor p).toInstant :=
  ⟨toInstant_mem_period (floor_valid p ht) (fieldsTo_floor p t),
    fun _ hi => ((mem_period_iff ht).1 hi).2.1⟩

/-- The rounded-up fields name the last instant of the period. -/
theorem isGreatest_period {p : Precision} {t : DateTime} (ht : t.Valid) :
    IsGreatest (p.period t) (t.ceil p).toInstant :=
  ⟨toInstant_mem_period (ceil_valid p ht) (fieldsTo_ceil p t),
    fun _ hi => ((mem_period_iff ht).1 hi).2.2⟩

/-! ## Rounding instants -/

theorem round_toInstant (p : Precision) (edge : Edge) {t : DateTime} (ht : t.Valid) :
    p.round edge t.toInstant = (t.round p edge).toInstant := by
  rw [round_of_inCalendar (inCalendar_toInstant ht), ofInstant_toInstant ht]

theorem roundDown_eq (p : Precision) {i : Int} (h : InCalendar i) :
    p.roundDown i = ((ofInstant i).floor p).toInstant := by
  rw [roundDown, round_of_inCalendar h, round_lower]

theorem roundUp_eq (p : Precision) {i : Int} (h : InCalendar i) :
    p.roundUp i = ((ofInstant i).ceil p).toInstant := by
  rw [roundUp, round_of_inCalendar h, round_upper p (valid_ofInstant h)]

theorem isLeast_roundDown (p : Precision) {i : Int} (h : InCalendar i) :
    IsLeast (p.period (ofInstant i)) (p.roundDown i) := by
  rw [roundDown_eq p h]
  exact isLeast_period (valid_ofInstant h)

theorem isGreatest_roundUp (p : Precision) {i : Int} (h : InCalendar i) :
    IsGreatest (p.period (ofInstant i)) (p.roundUp i) := by
  rw [roundUp_eq p h]
  exact isGreatest_period (valid_ofInstant h)

/-- **Rounding gives the ends of the period.** -/
theorem roundDown_le_and_le_roundUp_iff {p : Precision} {i j : Int} (hi : InCalendar i)
    (hj : InCalendar j) :
    p.roundDown i ≤ j ∧ j ≤ p.roundUp i ↔ (ofInstant j).fieldsTo p = (ofInstant i).fieldsTo p := by
  rw [roundDown_eq p hi, roundUp_eq p hi,
    ← floor_le_and_le_ceil_iff (valid_ofInstant hi) (valid_ofInstant hj), toInstant_ofInstant]

theorem roundDown_le {p : Precision} {i : Int} (h : InCalendar i) : p.roundDown i ≤ i :=
  ((roundDown_le_and_le_roundUp_iff h h).2 rfl).1

theorem le_roundUp {p : Precision} {i : Int} (h : InCalendar i) : i ≤ p.roundUp i :=
  ((roundDown_le_and_le_roundUp_iff h h).2 rfl).2

/-- Rounding outward keeps the order of instants, whatever the two precisions. -/
theorem roundDown_le_roundUp {p q : Precision} {i j : Int} (hi : InCalendar i)
    (hj : InCalendar j) (h : i ≤ j) : p.roundDown i ≤ q.roundUp j :=
  calc
    p.roundDown i ≤ i := roundDown_le hi
    _ ≤ j := h
    _ ≤ q.roundUp j := le_roundUp hj

end Precision

end DateSpan

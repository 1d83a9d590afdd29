import DateSpan.Calendar.Year

/-!
# Months

A year is twelve months, listed by their lengths. A day of the year is named
either by its number from the start of the year or by its month and the day
within it; `locate` turns the first into the second, `offset` the second into the
first, and each undoes the other.
-/

namespace DateSpan.Calendar

/-- Finds the interval that holds position `n` when intervals of the given lengths
are laid end to end: its index, and the position within it. -/
def locate : List Nat → Nat → Nat × Nat
  | [], n => (0, n)
  | l :: ls, n => if n < l then (0, n) else (locate ls (n - l)).map (· + 1) id

/-- The length of all intervals together. -/
def total (lengths : List Nat) : Nat := lengths.foldr (· + ·) 0

@[simp] theorem total_nil : total [] = 0 := rfl

@[simp] theorem total_cons (l : Nat) (ls : List Nat) : total (l :: ls) = l + total ls := rfl

/-- The position of the point `r` of interval `i`. -/
def offset (lengths : List Nat) (i r : Nat) : Nat := total (lengths.take i) + r

theorem locate_offset {lengths : List Nat} {i r : Nat} (hi : i < lengths.length)
    (hr : r < lengths[i]) : locate lengths (offset lengths i r) = (i, r) := by
  induction lengths generalizing i with
  | nil => simp at hi
  | cons l ls ih =>
    rcases i with _ | i
    · simp only [List.getElem_cons_zero] at hr
      simp [offset, locate, hr]
    · have h := ih (by simpa using hi) (by simpa using hr)
      have hs : offset (l :: ls) (i + 1) r = l + offset ls i r := by simp [offset]; omega
      simp [locate, hs, h]

theorem offset_lt_sum {lengths : List Nat} {i r : Nat} (hi : i < lengths.length)
    (hr : r < lengths[i]) : offset lengths i r < total lengths := by
  induction lengths generalizing i with
  | nil => simp at hi
  | cons l ls ih =>
    rcases i with _ | i
    · simp only [List.getElem_cons_zero] at hr
      simp [offset]; omega
    · have h := ih (by simpa using hi) (by simpa using hr)
      simp only [offset] at h
      simp [offset]; omega

theorem locate_spec {lengths : List Nat} {n : Nat} (h : n < total lengths) :
    ∃ hi : (locate lengths n).1 < lengths.length,
      (locate lengths n).2 < lengths[(locate lengths n).1] ∧
        offset lengths (locate lengths n).1 (locate lengths n).2 = n := by
  induction lengths generalizing n with
  | nil => simp at h
  | cons l ls ih =>
    by_cases hn : n < l
    · simp [locate, offset, hn]
    · obtain ⟨hi, hr, ho⟩ := ih (n := n - l) (by simp at h; omega)
      refine ⟨by simp [locate, hn, hi], by simpa [locate, hn] using hr, ?_⟩
      simp only [offset] at ho
      simp [locate, offset, hn]; omega

def monthLengths (year : Int) : List Nat :=
  [31, if IsLeap year then 29 else 28, 31, 30, 31, 30, 31, 31, 30, 31, 30, 31]

/-- The number of days in a month, counted from `1`; no days in a month that does
not exist. -/
def monthLength (year : Int) (month : Nat) : Nat := (monthLengths year)[month - 1]?.getD 0

@[simp] theorem length_monthLengths (year : Int) : (monthLengths year).length = 12 := rfl

@[simp] theorem total_monthLengths (year : Int) : total (monthLengths year) = yearLength year := by
  by_cases h : IsLeap year <;> simp [monthLengths, yearLength, h]

theorem monthLength_succ {year : Int} {i : Nat} (h : i < 12) :
    monthLength year (i + 1) = (monthLengths year)[i] := by
  rw [monthLength, Nat.add_sub_cancel,
    List.getElem?_eq_getElem (show i < (monthLengths year).length from h)]
  rfl

theorem monthLength_ge {year : Int} {month : Nat} (h : 1 ≤ month) (h' : month ≤ 12) :
    28 ≤ monthLength year month := by
  have hall : ∀ l ∈ monthLengths year, 28 ≤ l := by
    by_cases hl : IsLeap year <;> simp [monthLengths, hl]
  obtain ⟨i, rfl⟩ : ∃ i, month = i + 1 := ⟨month - 1, by omega⟩
  rw [monthLength_succ (by omega)]
  exact hall _ (List.getElem_mem _)

end DateSpan.Calendar

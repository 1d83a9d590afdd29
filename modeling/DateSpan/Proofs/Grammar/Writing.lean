import DateSpan.Proofs.Grammar.Acceptance

/-!
# What is written is derived by the grammar

`DateTree.ofDateTime` is the derivation of a date down to a precision: the sign and the digits
that the year is written with, as many of the other fields as the precision has, and a `Z` at
the millisecond. Two facts make writing the inverse of reading:

* `flatten_ofDateTime`: it derives what `Precision.write?` writes.
* `dateTime_ofDateTime`: the date it names is the first of the period.

Since the period of that date is the period of the date one started from, nothing else about
rounding is needed.
-/

namespace DateSpan

open Grammar

/-! ## Years -/

theorem Numeral.padded_of_le {width n : Nat} (h : width ≤ (digits n).length) :
    padded width n = digits n := by
  rw [padded, Nat.sub_eq_zero_of_le h, List.replicate_zero, List.nil_append]

namespace Grammar

/-- The sign that a year is written with. -/
def Sign.ofYear (year : Int) : Sign :=
  if year < 0 then .minus else if year ≤ 9999 then .absent else .plus

/-- The digits that a year is written with. In the year `0` there is one more. -/
def yearDigits (year : Int) : List Char :=
  Numeral.padded (if year = 0 then 5 else 4) year.natAbs

/-- Four digits and a sign are what a pattern has for a year, also for the year `0`. -/
theorem flatten_ofYear_iso (year : Int) :
    (Sign.ofYear year).flatten ++ Numeral.padded 4 year.natAbs = Year.iso year := by
  rw [Year.iso, Sign.ofYear]
  split
  · rfl
  · split
    · rfl
    · next hlarge =>
      -- A year beyond 9999 fills four digits by itself.
      have hlen : 4 ≤ (Numeral.digits year.natAbs).length :=
        Numeral.lt_length_digits (k := 3) (by decide) (show 1000 ≤ _ by omega)
      rw [Numeral.padded_of_le hlen]
      rfl

theorem flatten_ofYear (year : Int) :
    (Sign.ofYear year).flatten ++ yearDigits year =
      (if year = 0 then ['0'] else []) ++ Year.iso year := by
  rw [yearDigits]
  split
  · next h =>
    rw [h]
    rfl
  · exact flatten_ofYear_iso year

theorem factor_ofYear_mul_natAbs (year : Int) :
    (Sign.ofYear year).factor * (year.natAbs : Int) = year := by
  rw [Sign.ofYear]
  split
  · rw [Sign.factor]
    omega
  · split <;> rw [Sign.factor] <;> omega

theorem factor_ofYear (year : Int) :
    (Sign.ofYear year).factor * Numeral.value (yearDigits year) = year := by
  rw [yearDigits, Numeral.value_padded, factor_ofYear_mul_natAbs]

theorem length_yearDigits (year : Int) : 4 ≤ (yearDigits year).length := by
  have hwidth : 4 ≤ if year = 0 then 5 else 4 := by split <;> omega
  exact Nat.le_trans hwidth (Numeral.le_length_padded _ _)

/-! ## Dates -/

theorem Fits.take {ps : List Place} {parts : List (List Char)} (h : Fits ps parts) (n : Nat) :
    Fits ps (parts.take n) := by
  induction h generalizing n with
  | nil =>
    rw [List.take_nil]
    exact .nil
  | cons hw hds _ ih =>
    cases n with
    | zero => exact .nil
    | succ n => exact .cons hw hds (ih n)

/-- The digits of the fields after the year, all of them. -/
def fieldDigits (t : DateTime) : List (List Char) :=
  [Numeral.padded 2 t.month, Numeral.padded 2 t.day, Numeral.padded 2 t.hour,
    Numeral.padded 2 t.minute, Numeral.padded 2 t.second, Numeral.padded 3 t.milli]

theorem fits_padded {p : Place} {ps : List Place} {n : Nat} {parts : List (List Char)}
    (hw : 0 < p.width) (hn : n < Nat.pow 10 p.width) (h : Fits ps parts) :
    Fits (p :: ps) (Numeral.padded p.width n :: parts) := by
  have hlen : (Numeral.digits n).length ≤ p.width :=
    (Nat.length_toDigits_le_iff (by decide) hw).2 hn
  exact .cons (Numeral.length_padded hlen) (fun _ => Numeral.isDigit_of_mem_padded) h

theorem fits_fieldDigits {t : DateTime} (ht : t.Valid) : Fits places (fieldDigits t) := by
  have hm := ht.month_le
  have hd := Nat.le_trans ht.day_le (DateTime.monthLength_le t.year t.month)
  have hh := ht.hour_lt
  have hi := ht.minute_lt
  have hs := ht.second_lt
  have hl := ht.milli_lt
  apply fits_padded (p := ⟨'-', 2⟩) (by decide) (by simp; omega)
  apply fits_padded (p := ⟨'-', 2⟩) (by decide) (by simp; omega)
  apply fits_padded (p := ⟨'T', 2⟩) (by decide) (by simp; omega)
  apply fits_padded (p := ⟨':', 2⟩) (by decide) (by simp; omega)
  apply fits_padded (p := ⟨':', 2⟩) (by decide) (by simp; omega)
  apply fits_padded (p := ⟨'.', 3⟩) (by decide) (by simp; omega)
  exact .nil

namespace DateTree

/-- The derivation of a date down to a precision. -/
def ofDateTime (p : Precision) (t : DateTime) (ht : t.Valid) : DateTree where
  sign := .ofYear t.year
  year := yearDigits t.year
  parts := (fieldDigits t).take p.rank
  zone := p = .millisecond
  year_digits := fun _ => Numeral.isDigit_of_mem_padded
  year_length := length_yearDigits t.year
  parts_fit := (fits_fieldDigits ht).take p.rank
  zone_hour := by
    intro h
    obtain rfl := of_decide_eq_true h
    exact (by decide : 3 ≤ 6)

variable {p : Precision} {t : DateTime} (ht : t.Valid)

theorem precision_ofDateTime : (ofDateTime p t ht).precision = p := by
  rw [← Precision.rank_inj, rank_precision]
  cases p <;> rfl

/-- The derivation is one of the text that is written. -/
theorem flatten_ofDateTime : (ofDateTime p t ht).flatten = p.writeDate t := by
  have hrest : Pattern.write p.primary.tail t = (ofDateTime p t ht).rest := by
    cases p <;>
      simp [Precision.primary, Precision.patterns, Precision.stem_eq, Pattern.write,
        Pattern.Item.write, Pattern.finer, Precision.addition, Precision.rank, rest, ofDateTime,
        fieldDigits, places, flattenZone]
  rw [Precision.writeDate_eq, Precision.primary_write, hrest, ← List.append_assoc,
    ← flatten_ofYear, List.append_assoc]
  rfl

/-- Fields that are not written are those of the first date of the period. -/
theorem dateTime_ofDateTime : (ofDateTime p t ht).dateTime = t.floor p := by
  -- The year has its own way of being written; the other fields go precision by precision.
  have hyear : (ofDateTime p t ht).dateTime.year = t.year := factor_ofYear t.year
  have hfields : (ofDateTime p t ht).dateTime = { t.floor p with
      year := (ofDateTime p t ht).dateTime.year } := by
    cases p <;>
      simp [dateTime, part, ofDateTime, fieldDigits, DateTime.floor, Precision.le_def,
        Precision.rank]
  rw [hfields, hyear]
  rfl

theorem valid_ofDateTime : (ofDateTime p t ht).Valid := by
  rw [Valid, dateTime_ofDateTime]
  exact DateTime.floor_valid p ht

theorem period_ofDateTime : (ofDateTime p t ht).period = p.period t := by
  rw [period, precision_ofDateTime, dateTime_ofDateTime]
  simp only [Precision.period, DateTime.fieldsTo_floor]

end DateTree

/-! ## Bounds and ranges -/

/-- The derivation of a bound. -/
def BoundTree.ofBound : Bound → BoundTree
  | .unbounded => .star
  | .bounded m =>
    .date (.ofDateTime m.precision (.ofInstant m.instant) (DateTime.valid_ofInstant m.inCalendar))

/-- The derivation of a range. -/
def RangeTree.ofRange : Range → RangeTree
  | .single b => .single (.ofBound b)
  | .between l u _ => .between (.ofBound l) (.ofBound u)

theorem BoundTree.flatten_ofBound (b : Bound) : (ofBound b).flatten = b.text := by
  rcases b with _ | m
  · rfl
  · rw [Bound.text, Moment.text_eq]
    exact DateTree.flatten_ofDateTime _

theorem RangeTree.flatten_ofRange (r : Range) : (ofRange r).flatten = r.text := by
  rcases r with b | ⟨l, u, _⟩
  · exact BoundTree.flatten_ofBound b
  · simp only [ofRange, flatten, BoundTree.flatten_ofBound, Range.text, Range.separator,
      List.cons_append]

end Grammar

theorem Bound.isRangeChar_of_mem_text {b : Bound} {c : Char} (h : c ∈ b.text) :
    isRangeChar c := by
  rw [← BoundTree.flatten_ofBound] at h
  exact BoundTree.isRangeChar_of_mem_flatten h

/-- The text of a range is made of the characters of ranges. -/
theorem Range.isRangeChar_of_mem_text {r : Range} {c : Char} (h : c ∈ r.text) :
    isRangeChar c := by
  rw [← RangeTree.flatten_ofRange] at h
  exact RangeTree.isRangeChar_of_mem_flatten h

end DateSpan

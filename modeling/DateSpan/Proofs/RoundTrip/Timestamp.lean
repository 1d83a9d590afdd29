import DateSpan.Proofs.Grammar.Writing
import DateSpan.Proofs.Rounding
import DateSpan.Proofs.Text.Digits

/-!
# Instants in writing

An instant is put down to the millisecond in two ways. `timestampText` has no zone and writes the
year `0` like any other; a date at the millisecond ends in a `Z` and sets that year off by a fifth
digit. The two texts differ in nothing else (`write?_millisecond`), and both are read back as the
instant, the first by the second pattern of the millisecond (`infer_timestampText`) and the second
by the first (`infer_write?_millisecond`). So no two instants share a text.

Outside of the calendar `timestampText` resorts to the count of milliseconds. It has the letter `m`
then, and no date has.
-/

namespace DateSpan

open Grammar

/-! ## The derivation of a timestamp -/

namespace Grammar.DateTree

/-- A date down to the millisecond, with at least four digits for every year and no `Z`. -/
def ofTimestamp (t : DateTime) (ht : t.Valid) : DateTree where
  sign := .ofYear t.year
  year := Numeral.padded 4 t.year.natAbs
  parts := fieldDigits t
  zone := false
  year_digits := fun _ => Numeral.isDigit_of_mem_padded
  year_length := Numeral.le_length_padded 4 _
  parts_fit := fits_fieldDigits ht
  zone_hour := nofun

variable {t : DateTime} (ht : t.Valid)

theorem flatten_ofTimestamp :
    (ofTimestamp t ht).flatten = Precision.millisecond.stem.write t := by
  have hstem : Precision.millisecond.stem.write t = Year.iso t.year ++ (ofTimestamp t ht).rest := by
    simp [Precision.stem_eq, Pattern.write, Pattern.Item.write, Pattern.finer, Precision.addition,
      Precision.rank, rest, ofTimestamp, fieldDigits, places, flattenZone]
  rw [hstem, ← flatten_ofYear_iso, List.append_assoc]
  rfl

theorem dateTime_ofTimestamp : (ofTimestamp t ht).dateTime = t := by
  have hyear : (ofTimestamp t ht).dateTime.year = t.year := by
    rw [← factor_ofYear_mul_natAbs t.year, ← Numeral.value_padded 4 t.year.natAbs]
    rfl
  have hfields : (ofTimestamp t ht).dateTime =
      { t with year := (ofTimestamp t ht).dateTime.year } := by
    simp [dateTime, part, ofTimestamp, fieldDigits]
  rw [hfields, hyear]

end Grammar.DateTree

/-! ## Inside the calendar -/

variable {i j : Int} {edge : Edge}

theorem toList_timestampText (h : InCalendar i) :
    (timestampText i).toList = Precision.millisecond.stem.write (.ofInstant i) := by
  simp only [timestampText, DateTime.ofInstant?, if_pos h, String.toList_ofList]

namespace Precision

/-- What is read at the millisecond is the instant of the date, whichever end is asked for. -/
theorem infer_millisecond {d : DateTree} (hp : d.precision = millisecond)
    (ht : d.dateTime = .ofInstant i) (h : InCalendar i) :
    infer edge d.flatten = some (i, millisecond) := by
  rw [infer_eq_some_iff]
  refine ⟨d, rfl, ?_, hp, ?_⟩
  · rw [DateTree.Valid, ht]
    exact DateTime.valid_ofInstant h
  · rw [ht, DateTime.toInstant_ofInstant, round_millisecond]

theorem infer_timestampText (h : InCalendar i) :
    infer edge (timestampText i).toList = some (i, millisecond) := by
  have hd := DateTime.valid_ofInstant h
  rw [toList_timestampText h, ← DateTree.flatten_ofTimestamp hd]
  exact infer_millisecond rfl (DateTree.dateTime_ofTimestamp hd) h

theorem infer_write?_millisecond {cs : List Char} (h : millisecond.write? i = some cs) :
    infer edge cs = some (i, millisecond) := by
  obtain ⟨hin, rfl⟩ := write?_eq_some_iff.1 h
  have hd := DateTime.valid_ofInstant hin
  rw [← DateTree.flatten_ofDateTime hd]
  exact infer_millisecond (DateTree.precision_ofDateTime hd) (DateTree.dateTime_ofDateTime hd) hin

/-- **The two texts of an instant differ in the `Z` and in the year `0`.** -/
theorem write?_millisecond (h : InCalendar i) :
    millisecond.write? i = some ((if (DateTime.ofInstant i).year = 0 then ['0'] else []) ++
      (timestampText i).toList ++ ['Z']) := by
  have hprimary (t : DateTime) :
      millisecond.primary.write t = millisecond.stem.write t ++ ['Z'] := by
    simp [primary, patterns, Pattern.write, Pattern.Item.write]
  rw [write?_eq_some_iff, writeDate_eq, hprimary, toList_timestampText h, List.append_assoc]
  exact ⟨h, rfl⟩

end Precision

/-! ## Outside of it -/

theorem toList_timestampText_of_not_inCalendar (h : ¬ InCalendar i) :
    (timestampText i).toList = Numeral.signed i ++ ['m', 's'] := by
  simp only [timestampText, DateTime.ofInstant?, if_neg h, String.toList_ofList]

/-- A count of milliseconds is no date. -/
theorem Grammar.DateTree.flatten_ne_timestampText (h : ¬ InCalendar i) (d : DateTree) :
    d.flatten ≠ (timestampText i).toList := by
  intro heq
  have hno : 'm' ∉ d.flatten := d.not_mem_flatten (by decide)
  rw [heq, toList_timestampText_of_not_inCalendar h] at hno
  exact hno (by simp)

namespace Precision

theorem parse_timestampText (h : InCalendar i) (edge : Edge) :
    parse edge (timestampText i) = .ok (i, millisecond) :=
  parse_eq_ok_iff.2 (infer_timestampText h)

/-- None of the patterns reads it, so there is no precision to be found. -/
theorem parse_timestampText_of_not_inCalendar (h : ¬ InCalendar i) (edge : Edge) :
    parse edge (timestampText i) = .error (.grammar (timestampText i) 0 .unmatched) := by
  refine parse_eq_error_iff.2 ⟨?_, rfl⟩
  rcases hread : infer edge (timestampText i).toList with _ | ⟨j, p⟩
  · rfl
  · obtain ⟨d, hd, -⟩ := infer_eq_some_iff.1 hread
    exact absurd hd (d.flatten_ne_timestampText h)

theorem pattern_parse_timestampText (h : ¬ InCalendar i) {p : Precision} {pattern : Pattern}
    (hmem : pattern ∈ p.patterns) : pattern.parse (timestampText i).toList = none := by
  obtain ⟨zone, hz, rfl⟩ := mem_candidates_iff.1 (mem_candidates_iff_mem_patterns.2 hmem)
  rcases hread : Pattern.parse (p.stem ++ Pattern.zoneItems zone) (timestampText i).toList
    with _ | t
  · rfl
  · obtain ⟨d, hd, -⟩ := (parse_stem_eq_some_iff hz).1 hread
    exact absurd hd (d.flatten_ne_timestampText h)

end Precision

/-! ## All instants -/

theorem timestampText_injective : Function.Injective timestampText := by
  intro i j h
  by_cases hi : InCalendar i
  · have hread := Precision.parse_timestampText hi .lower
    rw [h] at hread
    by_cases hj : InCalendar j
    · rw [Precision.parse_timestampText hj] at hread
      cases hread
      rfl
    · rw [Precision.parse_timestampText_of_not_inCalendar hj] at hread
      cases hread
  · by_cases hj : InCalendar j
    · have hread := Precision.parse_timestampText hj .lower
      rw [← h, Precision.parse_timestampText_of_not_inCalendar hi] at hread
      cases hread
    · have hcount := congrArg String.toList h
      rw [toList_timestampText_of_not_inCalendar hi, toList_timestampText_of_not_inCalendar hj,
        List.append_cancel_right_eq] at hcount
      exact Numeral.signed_injective hcount

/-- No two instants are written alike at the millisecond. -/
theorem Precision.write?_millisecond_inj {cs : List Char} (hi : millisecond.write? i = some cs)
    (hj : millisecond.write? j = some cs) : i = j := by
  have hread : infer .lower cs = some (i, millisecond) := infer_write?_millisecond hi
  rw [infer_write?_millisecond hj] at hread
  cases hread
  rfl

/-- **The two texts of an instant agree through the reader.** In the calendar the bare text of an
instant is read as that instant to the millisecond, at either edge, and so is its date at the
millisecond. That date is the bare text with a `Z` after it, and in the year `0` also with a zero
before it. So neither text is that of two instants. Outside of the calendar the bare text ends in
`ms`, and is read by no pattern of any precision, nor at either edge. -/
theorem timestamps_agree :
    (∀ i, InCalendar i →
      (∀ edge, Precision.parse edge (timestampText i) = .ok (i, .millisecond)) ∧
      ((DateTime.ofInstant i).year ≠ 0 →
        Precision.millisecond.write? i = some ((timestampText i).toList ++ ['Z'])) ∧
      ((DateTime.ofInstant i).year = 0 →
        Precision.millisecond.write? i = some ('0' :: (timestampText i).toList ++ ['Z'])) ∧
      (∀ edge cs, Precision.millisecond.write? i = some cs →
        Precision.parse edge (String.ofList cs) = .ok (i, .millisecond))) ∧
    Function.Injective timestampText ∧
    (∀ i j, InCalendar i →
      Precision.millisecond.write? i = Precision.millisecond.write? j → i = j) ∧
    (∀ i, ¬ InCalendar i →
      ['m', 's'] <:+ (timestampText i).toList ∧
      (∀ edge, Precision.parse edge (timestampText i) =
        .error (.grammar (timestampText i) 0 .unmatched)) ∧
      (∀ p : Precision, ∀ pattern ∈ p.patterns,
        pattern.parse (timestampText i).toList = none)) := by
  refine ⟨?_, timestampText_injective, ?_, ?_⟩
  · intro i hi
    refine ⟨Precision.parse_timestampText hi, ?_, ?_, ?_⟩
    · intro hyear
      rw [Precision.write?_millisecond hi, if_neg hyear]
      rfl
    · intro hyear
      rw [Precision.write?_millisecond hi, if_pos hyear]
      rfl
    · intro edge cs h
      rw [Precision.parse_eq_ok_iff, String.toList_ofList]
      exact Precision.infer_write?_millisecond h
  · intro i j hi h
    have hwritten := Precision.write?_millisecond hi
    exact Precision.write?_millisecond_inj hwritten (h ▸ hwritten)
  · intro i hi
    refine ⟨?_, Precision.parse_timestampText_of_not_inCalendar hi, ?_⟩
    · rw [toList_timestampText_of_not_inCalendar hi]
      exact List.suffix_append _ _
    · intro p pattern hmem
      exact Precision.pattern_parse_timestampText hi hmem

/-- The last millisecond of the leap day in the year `0`, the epoch, and the first instant after the
calendar. -/
theorem timestamps_agree_yearZero :
    Precision.parse .upper "0000-02-29T23:59:59.999" = .ok (-62162035200001, .millisecond) ∧
      Precision.millisecond.write? (-62162035200001) = some "00000-02-29T23:59:59.999Z".toList ∧
      Precision.millisecond.write? 0 = some "1970-01-01T00:00:00.000Z".toList ∧
      Precision.parse .upper "8210266876800000ms" =
        .error (.grammar "8210266876800000ms" 0 .unmatched) := by
  have hin : timestampText (-62162035200001) = "0000-02-29T23:59:59.999" := by decide +kernel
  have hepoch : timestampText 0 = "1970-01-01T00:00:00.000" := by decide +kernel
  have hout : timestampText 8210266876800000 = "8210266876800000ms" := by decide +kernel
  obtain ⟨hinside, -, -, houtside⟩ := timestamps_agree
  obtain ⟨hread, -, hwritten, -⟩ := hinside (-62162035200001) (by decide)
  have hlater := (hinside 0 (by decide)).2.1 (by decide)
  have hrefused := (houtside 8210266876800000 (by decide)).2.1 .upper
  have hread := hread .upper
  rw [hin] at hread hwritten
  rw [hepoch] at hlater
  rw [hout] at hrefused
  exact ⟨hread, hwritten (by decide), hlater, hrefused⟩

end DateSpan

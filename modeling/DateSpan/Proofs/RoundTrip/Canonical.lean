import DateSpan.Proofs.RoundTrip.Text
import DateSpan.Proofs.Text.Digits

/-!
# The canonical spelling of a range

A date can be spelled in many ways: its year takes any number of leading zeros and a sign it does
not need, and a `Z` may follow from the hour on. One of the spellings is canonical, and it is the
one that is written. `DateTree.canonical` respells a derivation in that way and leaves the rest of
it alone, and the two main facts are

* `RangeTree.Denotes.ofRange_eq`: what is written of a range that was read is the canonical
  spelling of what was read, for rounding moves only fields that are not written;
* `RangeTree.canonical_eq_canonical_iff`: two derivations have one canonical spelling exactly if
  they are `Alike`, that is, if they have the same shape, precisions, years and digits.

So reading and writing once more compares spellings, and reading two texts compares derivations.
-/

namespace DateSpan

open Grammar

namespace Grammar

/-! ## Years -/

/-- How a year is spelled canonically. -/
inductive CanonicalYear : Sign → List Char → Prop
  /-- The year `0` takes five zeros. -/
  | zero : CanonicalYear .absent ['0', '0', '0', '0', '0']
  /-- The years from `1` to `9999` take four digits. -/
  | common {ds} : ds.length = 4 → 0 < Numeral.value ds → CanonicalYear .absent ds
  /-- Later years take a plus sign, and no leading zero. -/
  | late {ds} : 9999 < Numeral.value ds → ds.head? ≠ some '0' → CanonicalYear .plus ds
  /-- Earlier years take a minus sign, and leading zeros up to four digits only. -/
  | early {ds} : 0 < Numeral.value ds → ds.length = 4 ∨ 4 < ds.length ∧ ds.head? ≠ some '0' →
      CanonicalYear .minus ds

/-- Four digits, or more without a leading zero, are what is written of their value. -/
theorem yearDigits_value {ds : List Char} {n : Int} (hd : ∀ c ∈ ds, c.isDigit)
    (h : ds.length = 4 ∨ 4 < ds.length ∧ ds.head? ≠ some '0') (hpos : 0 < Numeral.value ds)
    (hn : n.natAbs = Numeral.value ds) : yearDigits n = ds := by
  rw [yearDigits, if_neg (by omega), hn]
  rcases h with hlen | ⟨hlen, hhead⟩
  · rw [← hlen]
    exact Numeral.padded_value hd (by omega)
  · have hdigits := Numeral.digits_value hd hhead hpos
    rw [Numeral.padded_of_le (by rw [hdigits]; omega), hdigits]

theorem CanonicalYear.eq_ofYear {s : Sign} {ds : List Char} (hd : ∀ c ∈ ds, c.isDigit)
    (h : CanonicalYear s ds) :
    Sign.ofYear (s.factor * Numeral.value ds) = s ∧
      yearDigits (s.factor * Numeral.value ds) = ds := by
  cases h with
  | zero => exact ⟨rfl, rfl⟩
  | common hlen hpos =>
    have hlt := Numeral.value_lt hd
    rw [hlen, show Nat.pow 10 4 = 10000 from rfl] at hlt
    rw [Sign.factor, Int.one_mul]
    refine ⟨?_, yearDigits_value hd (.inl hlen) hpos (Int.natAbs_natCast _)⟩
    rw [Sign.ofYear, if_neg (by omega), if_pos (by omega)]
  | late hlarge hhead =>
    have hlen : 4 < ds.length :=
      Numeral.lt_length_of_le_value hd (Nat.succ_le_of_lt hlarge)
    rw [Sign.factor, Int.one_mul]
    refine ⟨?_, yearDigits_value hd (.inr ⟨hlen, hhead⟩) (by omega) (Int.natAbs_natCast _)⟩
    rw [Sign.ofYear, if_neg (by omega), if_neg (by omega)]
  | early hpos hlen =>
    rw [Sign.factor, Int.neg_one_mul]
    refine ⟨?_, yearDigits_value hd hlen hpos (by omega)⟩
    rw [Sign.ofYear, if_pos (by omega)]

/-- Years are written in their canonical spelling. -/
theorem canonicalYear_ofYear (n : Int) : CanonicalYear (.ofYear n) (yearDigits n) := by
  by_cases hzero : n = 0
  · rw [hzero]
    exact .zero
  · have hval : Numeral.value (yearDigits n) = n.natAbs := Numeral.value_padded _ _
    have hform : (yearDigits n).length = 4 ∨
        4 < (yearDigits n).length ∧ (yearDigits n).head? ≠ some '0' := by
      rw [yearDigits, if_neg hzero]
      by_cases hlen : (Numeral.digits n.natAbs).length ≤ 4
      · exact .inl (Numeral.length_padded hlen)
      · rw [Numeral.padded_of_le (by omega)]
        exact .inr ⟨by omega, Numeral.head?_digits_ne (by omega)⟩
    rw [Sign.ofYear]
    split
    · exact .early (by omega) hform
    · split
      · next hle =>
        -- A number below ten thousand is not longer than four digits.
        refine .common ?_ (by omega)
        rw [yearDigits, if_neg hzero]
        apply Numeral.length_padded
        exact (Nat.length_toDigits_le_iff (by decide) (by decide)).2 (by simp; omega)
      · next hle =>
        have hlen : 4 < (Numeral.digits n.natAbs).length :=
          Numeral.lt_length_digits (by decide) (show 10000 ≤ _ by omega)
        refine .late (by omega) ?_
        rw [yearDigits, if_neg hzero, Numeral.padded_of_le (by omega)]
        exact Numeral.head?_digits_ne (by omega)

/-! ## Dates -/

/-- Groups of digits at the same places are told apart by their values. -/
theorem Fits.ext {ps : List Place} {parts parts' : List (List Char)} (h : Fits ps parts)
    (h' : Fits ps parts') (hvalues : (parts.map fun ds => (Numeral.value ds : Int)) =
      parts'.map fun ds => (Numeral.value ds : Int)) : parts = parts' := by
  induction h generalizing parts' with
  | nil => exact (List.map_eq_nil_iff.1 hvalues.symm).symm
  | cons hw hds _ ih =>
    cases h' with
    | nil => cases hvalues
    | cons hw' hds' hrest =>
      obtain ⟨hfirst, hvalues⟩ := List.cons.inj hvalues
      rw [Numeral.value_injective hds hds' (hw.trans hw'.symm) (Int.ofNat_inj.1 hfirst),
        ih hrest hvalues]

namespace DateTree

/-- The date is spelled canonically: in the spelling of its year, and with a `Z` exactly after
milliseconds. -/
structure Canonical (d : DateTree) : Prop where
  year : CanonicalYear d.sign d.year
  zone : d.zone ↔ d.precision = .millisecond

/-- The canonical spelling of a date. -/
def canonical (d : DateTree) : DateTree where
  sign := .ofYear d.dateTime.year
  year := yearDigits d.dateTime.year
  parts := d.parts
  zone := d.precision = .millisecond
  year_digits := fun _ => Numeral.isDigit_of_mem_padded
  year_length := length_yearDigits d.dateTime.year
  parts_fit := d.parts_fit
  zone_hour := by
    intro h
    rw [← rank_precision, of_decide_eq_true h]
    decide

/-- Two derivations name the same fields, down to the same one. -/
structure Alike (d e : DateTree) : Prop where
  precision : d.precision = e.precision
  year : d.dateTime.year = e.dateTime.year
  parts : d.parts = e.parts

variable {d e : DateTree}

theorem canonical_eq_self_iff : d.canonical = d ↔ d.Canonical := by
  constructor
  · intro h
    refine ⟨?_, ?_⟩
    · rw [← h]
      exact canonicalYear_ofYear d.dateTime.year
    · have hzone := congrArg zone h
      rw [← hzone]
      exact decide_eq_true_iff
  · intro h
    obtain ⟨hsign, hyear⟩ := h.year.eq_ofYear d.year_digits
    exact eq_of_fields hsign hyear rfl (Bool.eq_iff_iff.2 (decide_eq_true_iff.trans h.zone.symm))

theorem precision_eq_of_parts_eq (h : d.parts = e.parts) : d.precision = e.precision := by
  rw [← Precision.rank_inj, rank_precision, rank_precision, h]

theorem canonical_eq_canonical_iff : d.canonical = e.canonical ↔ d.Alike e := by
  constructor
  · intro h
    have hparts : d.canonical.parts = e.canonical.parts := congrArg parts h
    refine ⟨precision_eq_of_parts_eq hparts, ?_, hparts⟩
    rw [← factor_ofYear d.dateTime.year, ← factor_ofYear e.dateTime.year]
    exact congrArg (fun x => x.sign.factor * (Numeral.value x.year : Int)) h
  · intro h
    apply eq_of_fields
    · exact congrArg Sign.ofYear h.year
    · exact congrArg yearDigits h.year
    · exact h.parts
    · simp only [canonical, h.precision]

theorem precision_canonical (d : DateTree) : d.canonical.precision = d.precision :=
  precision_eq_of_parts_eq rfl

/-- Respelling a date does not change what it names. -/
theorem dateTime_canonical (d : DateTree) : d.canonical.dateTime = d.dateTime := by
  have hyear : d.canonical.dateTime.year = d.dateTime.year := factor_ofYear d.dateTime.year
  have hfields : d.canonical.dateTime =
      { d.dateTime with year := d.canonical.dateTime.year } := rfl
  rw [hfields, hyear]

theorem canonical_canonical (d : DateTree) : d.canonical.canonical = d.canonical := by
  rw [canonical_eq_canonical_iff]
  exact ⟨d.precision_canonical, congrArg DateTime.year d.dateTime_canonical, rfl⟩

/-! ### What is written of a date that was read -/

/-- The fields that are given are the year and the values of the groups of digits. -/
theorem fieldsTo_dateTime (d : DateTree) :
    d.dateTime.fieldsTo d.precision =
      d.dateTime.year :: d.parts.map fun ds => (Numeral.value ds : Int) := by
  have hl : d.parts.length ≤ 6 := length_le_of_fits d.parts_fit
  simp only [DateTime.fieldsTo, rank_precision, DateTime.fields, dateTime, part]
  generalize d.parts = parts at hl ⊢
  rcases parts with _ | ⟨_, _ | ⟨_, _ | ⟨_, _ | ⟨_, _ | ⟨_, _ | ⟨_, _ | ⟨_, parts⟩⟩⟩⟩⟩⟩⟩
  case cons.cons.cons.cons.cons.cons.cons =>
    simp only [List.length_cons] at hl
    omega
  all_goals rfl

theorem alike_iff : d.Alike e ↔
    d.precision = e.precision ∧
      d.dateTime.fieldsTo d.precision = e.dateTime.fieldsTo e.precision := by
  rw [fieldsTo_dateTime, fieldsTo_dateTime]
  constructor
  · intro h
    exact ⟨h.precision, by rw [h.year, h.parts]⟩
  · intro h
    obtain ⟨hprecision, hfields⟩ := h
    obtain ⟨hyear, hvalues⟩ := List.cons.inj hfields
    exact ⟨hprecision, hyear, d.parts_fit.ext e.parts_fit hvalues⟩

theorem canonical_ofDateTime {p : Precision} {t : DateTime} (ht : t.Valid) :
    (ofDateTime p t ht).canonical = ofDateTime p t ht := by
  rw [canonical_eq_self_iff]
  refine ⟨canonicalYear_ofYear t.year, ?_⟩
  rw [precision_ofDateTime]
  exact decide_eq_true_iff

/-- Rounding leaves those fields alone that are written. -/
theorem ofDateTime_eq_canonical {t : DateTime} (ht : t.Valid) {edge : Edge} (hd : d.Valid)
    (h : t = d.dateTime.round d.precision edge) : ofDateTime d.precision t ht = d.canonical := by
  have hfields : t.fieldsTo d.precision = d.dateTime.fieldsTo d.precision := by
    rw [h, DateTime.fieldsTo_round _ _ hd]
  rw [← canonical_ofDateTime, canonical_eq_canonical_iff, alike_iff, precision_ofDateTime,
    dateTime_ofDateTime, DateTime.fieldsTo_floor]
  exact ⟨rfl, hfields⟩

/-! ### What two spellings of a date may differ in -/

/-- Two derivations differ at most in the sign and the leading zeros of the year, and in a `Z`. A
sign is of no account if the year is `0`, and a plus sign never is. -/
structure Respelled (d e : DateTree) : Prop where
  parts : d.parts = e.parts
  year : ∃ n n' ds, d.year = List.replicate n '0' ++ ds ∧ e.year = List.replicate n' '0' ++ ds ∧
    (d.sign.factor = e.sign.factor ∨ ds = [])

theorem alike_iff_respelled : d.Alike e ↔ d.Respelled e := by
  have hyear (d : DateTree) : d.dateTime.year = d.sign.factor * Numeral.value d.year := rfl
  have hfactor (s : Sign) : s.factor = 1 ∨ s.factor = -1 := by cases s <;> simp [Sign.factor]
  constructor
  · intro h
    obtain ⟨n, ds, hd, hhead⟩ := Numeral.exists_eq_replicate_zero_append d.year
    obtain ⟨n', es, he, hhead'⟩ := Numeral.exists_eq_replicate_zero_append e.year
    have hds : ∀ c ∈ ds, c.isDigit := fun c hc => d.year_digits c (by simp [hd, hc])
    have hes : ∀ c ∈ es, c.isDigit := fun c hc => e.year_digits c (by simp [he, hc])
    have hsigned := h.year
    rw [hyear, hyear, hd, he, Numeral.value_replicate_zero_append,
      Numeral.value_replicate_zero_append] at hsigned
    have hvalue : Numeral.value ds = Numeral.value es := by
      rcases hfactor d.sign with hs | hs <;> rcases hfactor e.sign with hs' | hs' <;>
        rw [hs, hs'] at hsigned <;> omega
    have hsame := Numeral.value_injective_of_head hds hes hhead hhead' hvalue
    refine ⟨h.parts, n, n', ds, hd, by rw [hsame]; exact he, ?_⟩
    -- Opposite signs go with one year only, the year without significant digits.
    by_cases hzero : Numeral.value ds = 0
    · exact .inr (Numeral.value_injective_of_head hds (by simp) hhead (by simp) hzero)
    · rw [← hvalue] at hsigned
      exact .inl (Int.eq_of_mul_eq_mul_right (Int.natCast_ne_zero.2 hzero) hsigned)
  · intro h
    obtain ⟨n, n', ds, hd, he, hsign⟩ := h.year
    refine ⟨precision_eq_of_parts_eq h.parts, ?_, h.parts⟩
    rw [hyear, hyear, hd, he, Numeral.value_replicate_zero_append,
      Numeral.value_replicate_zero_append]
    rcases hsign with hsign | rfl
    · rw [hsign]
    · rw [show Numeral.value [] = 0 from rfl, Int.natCast_zero, Int.mul_zero, Int.mul_zero]

end DateTree

/-! ## Bounds and ranges -/

namespace BoundTree

def canonical : BoundTree → BoundTree
  | star => star
  | date d => date d.canonical

/-- The dates in a derivation. -/
def dates : BoundTree → List DateTree
  | star => []
  | date d => [d]

/-- Both are stars, or dates that are alike. -/
inductive Alike : BoundTree → BoundTree → Prop
  | star : Alike star star
  | date {d e : DateTree} : d.Alike e → Alike (date d) (date e)

theorem canonical_eq_self_iff {x : BoundTree} :
    x.canonical = x ↔ ∀ d ∈ x.dates, d.Canonical := by
  cases x with
  | star => simp [canonical, dates]
  | date d => simp [canonical, dates, DateTree.canonical_eq_self_iff]

theorem canonical_eq_canonical_iff {x y : BoundTree} :
    x.canonical = y.canonical ↔ x.Alike y := by
  constructor
  · intro h
    cases x <;> cases y <;> simp only [canonical, reduceCtorEq, date.injEq] at h
    · exact .star
    · exact .date (DateTree.canonical_eq_canonical_iff.1 h)
  · intro h
    cases h with
    | star => rfl
    | date h => simp only [canonical, DateTree.canonical_eq_canonical_iff.2 h]

theorem Denotes.ofBound_eq {edge : Edge} {x : BoundTree} {b : Bound} (h : x.Denotes edge b) :
    ofBound b = x.canonical := by
  rcases x with _ | d
  · obtain rfl : b = .unbounded := h
    rfl
  · obtain ⟨hd, ⟨i, p, hin⟩, rfl, rfl, hend⟩ := h
    have hround : i = d.precision.round edge d.dateTime.toInstant :=
      IsEnd.unique hend (DateTree.isEnd_round hd edge)
    rw [Precision.round_toInstant _ _ hd] at hround
    have hdate : DateTime.ofInstant i = d.dateTime.round d.precision edge := by
      rw [hround, DateTime.ofInstant_toInstant (DateTime.round_valid _ _ hd)]
    rw [ofBound, canonical, DateTree.ofDateTime_eq_canonical _ hd hdate]

/-- A bound that was read is written in the canonical spelling. -/
theorem Denotes.text_eq {edge : Edge} {x : BoundTree} {b : Bound} (h : x.Denotes edge b) :
    b.text = x.canonical.flatten := by
  rw [← flatten_ofBound, h.ofBound_eq]

end BoundTree

namespace RangeTree

def canonical : RangeTree → RangeTree
  | single b => single b.canonical
  | between l u => between l.canonical u.canonical

/-- The dates in a derivation. -/
def dates : RangeTree → List DateTree
  | single b => b.dates
  | between l u => l.dates ++ u.dates

/-- The shapes are the same, and the bounds are alike. -/
inductive Alike : RangeTree → RangeTree → Prop
  | single {b b' : BoundTree} : b.Alike b' → Alike (single b) (single b')
  | between {l l' u u' : BoundTree} : l.Alike l' → u.Alike u' →
      Alike (between l u) (between l' u')

theorem canonical_eq_self_iff {x : RangeTree} :
    x.canonical = x ↔ ∀ d ∈ x.dates, d.Canonical := by
  cases x with
  | single b => simp only [canonical, dates, single.injEq, BoundTree.canonical_eq_self_iff]
  | between l u =>
    simp only [canonical, dates, between.injEq, BoundTree.canonical_eq_self_iff, List.mem_append,
      or_imp, forall_and]

theorem canonical_eq_canonical_iff {x y : RangeTree} :
    x.canonical = y.canonical ↔ x.Alike y := by
  constructor
  · intro h
    cases x <;> cases y <;> simp only [canonical, reduceCtorEq, single.injEq, between.injEq] at h
    · exact .single (BoundTree.canonical_eq_canonical_iff.1 h)
    · exact .between (BoundTree.canonical_eq_canonical_iff.1 h.1)
        (BoundTree.canonical_eq_canonical_iff.1 h.2)
  · intro h
    cases h with
    | single h => simp only [canonical, BoundTree.canonical_eq_canonical_iff.2 h]
    | between hl hu =>
      simp only [canonical, BoundTree.canonical_eq_canonical_iff.2 hl,
        BoundTree.canonical_eq_canonical_iff.2 hu]

theorem Denotes.ofRange_eq {x : RangeTree} {r : Range} (h : x.Denotes r) :
    ofRange r = x.canonical := by
  rcases x with b | ⟨l, u⟩
  · obtain ⟨b', hb, rfl⟩ := h
    rw [ofRange, canonical, hb.ofBound_eq]
  · obtain ⟨l', u', _, hl, hu, rfl⟩ := h
    rw [ofRange, canonical, hl.ofBound_eq, hu.ofBound_eq]

end RangeTree

end Grammar

/-! ## Reading and writing ranges -/

namespace Range

theorem flatten_canonical {s : String} {r : Range} (h : Range.parse s = .ok r) {x : RangeTree}
    (hx : x.flatten = s.toList) : x.canonical.flatten = (toString r).toList := by
  obtain ⟨y, hy, hden⟩ := parse_eq_ok_iff.1 h
  obtain rfl := RangeTree.flatten_injective (hx.trans hy.symm)
  rw [← hden.ofRange_eq, RangeTree.flatten_ofRange]
  exact String.toList_ofList.symm

theorem parse_toString_of_parse {s : String} {r : Range} (h : Range.parse s = .ok r) :
    Range.parse (toString r) = .ok r := by
  rw [parse_toString, settle_eq_self_iff.2 (settled_of_parse h)]

/-- Ranges that were read are told apart by what is written of them. -/
theorem toString_eq_toString_iff {s t : String} {r r' : Range} (h : Range.parse s = .ok r)
    (h' : Range.parse t = .ok r') : toString r = toString r' ↔ r = r' := by
  constructor
  · intro htext
    have hread := parse_toString_of_parse h
    rw [htext, parse_toString_of_parse h'] at hread
    exact (Except.ok.inj hread).symm
  · rintro rfl
    rfl

/-- **A range that was read is written in the canonical spelling.** What is written reads back as
the same range, and it is the text that was read if and only if all dates in there are spelled
canonically. Two texts are read as one range if and only if they have one canonical text, and they
have one if and only if they are alike in shape and, bound by bound, in precision, year and the
digits after the year; their dates then differ in the sign and the leading zeros of the year and in
a `Z` at most. -/
theorem canonical_text :
    (∀ s r, Range.parse s = .ok r →
      Range.parse (toString r) = .ok r ∧ ∃! x : RangeTree, x.flatten = s.toList) ∧
    (∀ s r (x : RangeTree), Range.parse s = .ok r → x.flatten = s.toList →
      (toString r = s ↔ ∀ d ∈ x.dates, d.Canonical)) ∧
    (∀ s t r r' (x y : RangeTree), Range.parse s = .ok r → Range.parse t = .ok r' →
      x.flatten = s.toList → y.flatten = t.toList →
      (r = r' ↔ toString r = toString r') ∧ (toString r = toString r' ↔ x.Alike y)) ∧
    (∀ d e : DateTree, d.Alike e ↔ d.Respelled e) := by
  refine ⟨?_, ?_, ?_, fun d e => DateTree.alike_iff_respelled⟩
  · intro s r h
    obtain ⟨x, hx, -⟩ := parse_eq_ok_iff.1 h
    refine ⟨parse_toString_of_parse h, x, hx, ?_⟩
    intro y hy
    exact RangeTree.flatten_injective (hy.trans hx.symm)
  · intro s r x h hx
    rw [← RangeTree.canonical_eq_self_iff, ← String.toList_inj, ← flatten_canonical h hx, ← hx]
    exact ⟨RangeTree.flatten_injective, congrArg RangeTree.flatten⟩
  · intro s t r r' x y h h' hx hy
    refine ⟨(toString_eq_toString_iff h h').symm, ?_⟩
    rw [← RangeTree.canonical_eq_canonical_iff, ← String.toList_inj, ← flatten_canonical h hx,
      ← flatten_canonical h' hy]
    exact ⟨RangeTree.flatten_injective, congrArg RangeTree.flatten⟩

/-- A leading zero too many is read, and is gone when the range is written. -/
theorem canonical_text_leapDay :
    ∃ r, Range.parse "02012-02-29" = .ok r ∧ Range.parse "2012-02-29" = .ok r ∧
      toString r = "2012-02-29" ∧ toString r ≠ "02012-02-29" := by
  let d := leapDay ['2', '0', '1', '2'] (List.all_eq_true.1 rfl) (by decide)
  let e := leapDay ['0', '2', '0', '1', '2'] (List.all_eq_true.1 rfl) (by decide)
  let r : Range := .single (.bounded ⟨1330473600000, .day, by decide⟩)
  have hd : Range.parse "2012-02-29" = .ok r := by decide +kernel
  have he : Range.parse "02012-02-29" = .ok r := by decide +kernel
  refine ⟨r, he, hd, ?_, ?_⟩
  · apply (canonical_text.2.1 _ r (.single (.date d)) hd rfl).2
    intro d' hd'
    obtain rfl := List.mem_singleton.1 hd'
    exact ⟨.common rfl (by decide), by decide⟩
  · intro htext
    have hcanonical := (canonical_text.2.1 _ r (.single (.date e)) he rfl).1 htext
    cases (hcanonical e List.mem_cons_self).year with
    | common hlen _ => exact absurd hlen (by decide)

end Range

end DateSpan

import DateSpan.Pattern.Year
import DateSpan.Proofs.Period
import DateSpan.Range.Text

/-!
# The grammar of ranges

What may be written, without regard to how it is read:

    range = bound | "[" bound " TO " bound "]"
    bound = "*" | date
    date  = year ["-" MM ["-" DD ["T" hh [":" mm [":" ss ["." mmm]]]]]] ["Z"]
    year  = ["+" | "-"] four or more digits

A `Z` may follow once the hour is given. A derivation is a tree: a `DateTree`, a `BoundTree`
or a `RangeTree`, and `flatten` is the text it derives. The trees carry what is required of
digits, so that every tree is a derivation; whether the date exists is a matter of `Valid`,
and what a tree stands for is a matter of `Denotes`.

The grammar is unambiguous, that is, `flatten` is injective. Nothing has to be searched for:
the year ends where its digits end, the other fields have fixed widths, and no bound contains
a blank.
-/

namespace DateSpan.Grammar

open Calendar

/-! ## Dates -/

/-- The sign of a year. -/
inductive Sign where
  | absent
  | plus
  | minus
deriving DecidableEq

namespace Sign

def flatten : Sign → List Char
  | absent => []
  | plus => ['+']
  | minus => ['-']

def factor : Sign → Int
  | absent => 1
  | plus => 1
  | minus => -1

end Sign

/-- Where a field other than the year stands: after which character, and how many digits. -/
structure Place where
  mark : Char
  width : Nat
deriving DecidableEq

/-- The places of the month, the day, the hour, the minute, the second and the milliseconds. -/
def places : List Place :=
  [⟨'-', 2⟩, ⟨'-', 2⟩, ⟨'T', 2⟩, ⟨':', 2⟩, ⟨':', 2⟩, ⟨'.', 3⟩]

/-- Groups of digits that fill the first of some places, as many as there are groups. -/
inductive Fits : List Place → List (List Char) → Prop
  | nil {ps} : Fits ps []
  | cons {p ps ds parts} : ds.length = p.width → (∀ c ∈ ds, c.isDigit) → Fits ps parts →
      Fits (p :: ps) (ds :: parts)

/-- The groups of digits, each with its character in front. -/
def flattenParts : List Place → List (List Char) → List Char
  | p :: ps, ds :: parts => p.mark :: ds ++ flattenParts ps parts
  | _, _ => []

@[simp] theorem flattenParts_nil (ps : List Place) : flattenParts ps [] = [] := by
  cases ps <;> rfl

@[simp] theorem flattenParts_cons (p : Place) (ps : List Place) (ds : List Char)
    (parts : List (List Char)) :
    flattenParts (p :: ps) (ds :: parts) = p.mark :: ds ++ flattenParts ps parts := rfl

def flattenZone (zone : Bool) : List Char := if zone then ['Z'] else []

/-- A derivation of a date. `parts` are the digits of the fields after the year, as far down
as they are given. -/
structure DateTree where
  sign : Sign
  year : List Char
  parts : List (List Char)
  zone : Bool
  year_digits : ∀ c ∈ year, c.isDigit
  year_length : 4 ≤ year.length
  parts_fit : Fits places parts
  zone_hour : zone → 3 ≤ parts.length

namespace DateTree

/-- What comes after the year. -/
def rest (d : DateTree) : List Char := flattenParts places d.parts ++ flattenZone d.zone

def flatten (d : DateTree) : List Char := d.sign.flatten ++ (d.year ++ d.rest)

/-- The precision of the last field that is given. -/
def precision (d : DateTree) : Precision :=
  match d.parts.length with
  | 0 => .year
  | 1 => .month
  | 2 => .day
  | 3 => .hour
  | 4 => .minute
  | 5 => .second
  | _ => .millisecond

/-- The value of a field, or its least value if it is not given. -/
def part (d : DateTree) (i least : Nat) : Nat := (d.parts[i]?.map Numeral.value).getD least

/-- The date that the fields name; those that are not given are least. -/
def dateTime (d : DateTree) : DateTime where
  year := d.sign.factor * Numeral.value d.year
  month := d.part 0 1
  day := d.part 1 1
  hour := d.part 2 0
  minute := d.part 3 0
  second := d.part 4 0
  milli := d.part 5 0

/-- The fields are a date of the calendar and a time on it. -/
def Valid (d : DateTree) : Prop := d.dateTime.Valid

/-- The instants that agree with the date in the fields that are given. -/
def period (d : DateTree) : Set Int := d.precision.period d.dateTime

end DateTree

/-! ## Bounds and ranges -/

/-- A derivation of a bound. -/
inductive BoundTree where
  | star
  | date (d : DateTree)

/-- A derivation of a range. -/
inductive RangeTree where
  | single (b : BoundTree)
  | between (lower upper : BoundTree)

/-- The first or the last of some instants. -/
def IsEnd : Edge → Set Int → Int → Prop
  | .lower => IsLeast
  | .upper => IsGreatest

namespace BoundTree

def flatten : BoundTree → List Char
  | star => ['*']
  | date d => d.flatten

def Valid : BoundTree → Prop
  | star => True
  | date d => d.Valid

/-- A star is the open bound. A date, if it exists, is the moment at the end of its period that
the edge asks for, at the precision of its last field. -/
def Denotes (edge : Edge) : BoundTree → Bound → Prop
  | star, b => b = .unbounded
  | date d, b => d.Valid ∧ ∃ m : Moment, b = .bounded m ∧ m.precision = d.precision ∧
      IsEnd edge d.period m.instant

end BoundTree

namespace RangeTree

def flatten : RangeTree → List Char
  | single b => b.flatten
  | between lower upper =>
    '[' :: (lower.flatten ++ [' ', 'T', 'O', ' '] ++ upper.flatten ++ [']'])

def Valid : RangeTree → Prop
  | single b => b.Valid
  | between lower upper => lower.Valid ∧ upper.Valid

/-- The bounds are not inverted: if both are dates, the first instant of the lower one is not
after the last instant of the upper one. -/
def InOrder : RangeTree → Prop
  | between (.date d) (.date e) => ∀ i j, IsLeast d.period i → IsGreatest e.period j → i ≤ j
  | _ => True

/-- A single bound is read as a lower bound. -/
def Denotes : RangeTree → Range → Prop
  | single b, r => ∃ b', b.Denotes .lower b' ∧ r = .single b'
  | between lower upper, r => ∃ l u, ∃ h : l.InOrder u,
      lower.Denotes .lower l ∧ upper.Denotes .upper u ∧ r = .between l u h

end RangeTree

/-! ## Unambiguity of dates -/

theorem mark_of_mem_places {p : Place} (h : p ∈ places) :
    ¬ p.mark.isDigit ∧ p.mark ≠ 'Z' := by
  revert p
  decide

/-- After the digits of the year comes no further digit. -/
theorem DateTree.not_isDigit_head_rest (d : DateTree) : ∀ c ∈ d.rest.head?, ¬ c.isDigit := by
  intro c hc
  rcases hp : d.parts with _ | ⟨ds, parts⟩
  · rw [rest, hp, flattenParts_nil, List.nil_append, flattenZone] at hc
    split at hc <;> simp at hc
    rw [← hc]
    decide
  · have hh : d.rest.head? = some '-' := by simp [rest, hp, places]
    rw [hh, Option.mem_some_iff] at hc
    rw [← hc]
    decide

/-- A sign is set off from the digits after it. -/
theorem sign_flatten_inj {s s' : Sign} {c c' : Char} {cs cs' : List Char} (hc : c.isDigit)
    (hc' : c'.isDigit) (h : s.flatten ++ c :: cs = s'.flatten ++ c' :: cs') :
    s = s' ∧ c :: cs = c' :: cs' := by
  have hplus : '+'.isDigit = false := by decide
  have hminus : '-'.isDigit = false := by decide
  cases s <;> cases s' <;> simp only [Sign.flatten, List.nil_append, List.cons_append,
    List.cons.injEq] at h
  case absent.absent => exact ⟨rfl, by rw [h.1, h.2]⟩
  case absent.plus => rw [h.1, hplus] at hc; cases hc
  case absent.minus => rw [h.1, hminus] at hc; cases hc
  case plus.absent => rw [← h.1, hplus] at hc'; cases hc'
  case plus.plus => exact ⟨rfl, by rw [h.2.1, h.2.2]⟩
  case plus.minus => exact absurd h.1 (by decide)
  case minus.absent => rw [← h.1, hminus] at hc'; cases hc'
  case minus.plus => exact absurd h.1 (by decide)
  case minus.minus => exact ⟨rfl, by rw [h.2.1, h.2.2]⟩

/-- The groups are found again by their widths, and the zone is what is left. -/
theorem flattenParts_inj {ps : List Place} (hz : ∀ p ∈ ps, p.mark ≠ 'Z')
    {parts parts' : List (List Char)} (h : Fits ps parts) (h' : Fits ps parts')
    {zone zone' : Bool}
    (heq : flattenParts ps parts ++ flattenZone zone =
      flattenParts ps parts' ++ flattenZone zone') :
    parts = parts' ∧ zone = zone' := by
  induction h generalizing parts' with
  | nil =>
    -- A further group would start with its mark, and that is no `Z`.
    cases h' with
    | nil => cases zone <;> cases zone' <;> simp_all [flattenZone]
    | cons _ _ _ =>
      have := hz _ List.mem_cons_self
      cases zone <;> simp [flattenZone] at heq
      exact absurd heq.1.symm this
  | cons hw _ _ ih =>
    cases h' with
    | nil =>
      have := hz _ List.mem_cons_self
      cases zone' <;> simp [flattenZone] at heq
      exact absurd heq.1 this
    | cons hw' _ hf' =>
      simp only [flattenParts_cons, List.cons_append, List.append_assoc, List.cons.injEq,
        true_and] at heq
      obtain ⟨hds, hrest⟩ := List.append_inj heq (by rw [hw, hw'])
      obtain ⟨hparts, hzone⟩ := ih (fun p hp => hz p (List.mem_cons_of_mem _ hp)) hf' hrest
      exact ⟨by rw [hds, hparts], hzone⟩

theorem DateTree.eq_of_fields {d e : DateTree} (hs : d.sign = e.sign) (hy : d.year = e.year)
    (hp : d.parts = e.parts) (hz : d.zone = e.zone) : d = e := by
  cases d
  cases e
  simp_all

/-- **A text is a date in one way at most.** -/
theorem DateTree.flatten_injective {d e : DateTree} (h : d.flatten = e.flatten) : d = e := by
  rw [flatten, flatten] at h
  -- The sign goes by the first character, which is a digit if there is none.
  have hsplit : d.sign = e.sign ∧ d.year ++ d.rest = e.year ++ e.rest := by
    have hl := d.year_length
    have hl' := e.year_length
    have hd := d.year_digits
    have hd' := e.year_digits
    rcases hy : d.year with _ | ⟨c, cs⟩ <;> rcases hy' : e.year with _ | ⟨c', cs'⟩
    · simp [hy] at hl
    · simp [hy] at hl
    · simp [hy'] at hl'
    · rw [hy, hy'] at h
      exact sign_flatten_inj (hd c (by simp [hy])) (hd' c' (by simp [hy'])) h
  obtain ⟨hsign, hbody⟩ := hsplit
  -- The year is all the digits that follow.
  have hspan := Year.span_digits d.year_digits d.not_isDigit_head_rest
  have hspan' := Year.span_digits e.year_digits e.not_isDigit_head_rest
  rw [hbody] at hspan
  have hyear : d.year = e.year := hspan.1.symm.trans hspan'.1
  have hrest : d.rest = e.rest := hspan.2.symm.trans hspan'.2
  obtain ⟨hparts, hzone⟩ := flattenParts_inj (fun p hp => (mark_of_mem_places hp).2)
    d.parts_fit e.parts_fit hrest
  exact eq_of_fields hsign hyear hparts hzone

/-! ## Unambiguity of bounds and ranges

Brackets, blanks and stars are set off from dates by the characters that dates are made of. -/

/-- The characters of dates. -/
def isDateChar (c : Char) : Bool := c.isDigit || ['+', '-', 'T', ':', '.', 'Z'].contains c

theorem isDateChar_of_isDigit {c : Char} (h : c.isDigit) : isDateChar c := by
  simp [isDateChar, h]

theorem isDateChar_of_mem_flattenParts {ps : List Place} (hps : ∀ p ∈ ps, isDateChar p.mark)
    {parts : List (List Char)} (h : Fits ps parts) :
    ∀ c ∈ flattenParts ps parts, isDateChar c := by
  induction h with
  | nil => simp
  | cons _ hds _ ih =>
    intro c hc
    rw [flattenParts_cons, List.cons_append, List.mem_cons, List.mem_append] at hc
    rcases hc with rfl | hc | hc
    · exact hps _ List.mem_cons_self
    · exact isDateChar_of_isDigit (hds c hc)
    · exact ih (fun p hp => hps p (List.mem_cons_of_mem _ hp)) c hc

namespace DateTree

theorem isDateChar_of_mem_flatten {d : DateTree} : ∀ c ∈ d.flatten, isDateChar c := by
  intro c hc
  rw [flatten, rest, List.mem_append, List.mem_append, List.mem_append] at hc
  rcases hc with hc | hc | hc | hc
  · cases h : d.sign <;> simp [h, Sign.flatten] at hc <;> rw [hc] <;> decide
  · exact isDateChar_of_isDigit (d.year_digits c hc)
  · exact isDateChar_of_mem_flattenParts (by decide) d.parts_fit c hc
  · cases h : d.zone <;> simp [h, flattenZone] at hc
    rw [hc]
    decide

theorem not_mem_flatten (d : DateTree) {c : Char} (h : isDateChar c = false) :
    c ∉ d.flatten := by
  intro hc
  rw [isDateChar_of_mem_flatten c hc] at h
  cases h

end DateTree

namespace BoundTree

theorem flatten_injective {b b' : BoundTree} (h : b.flatten = b'.flatten) : b = b' := by
  have hstar (d : DateTree) : d.flatten ≠ ['*'] := fun he =>
    d.not_mem_flatten (c := '*') (by decide) (by simp [he])
  rcases b with _ | d <;> rcases b' with _ | d'
  · rfl
  · exact absurd h.symm (hstar d')
  · exact absurd h (hstar d)
  · rw [DateTree.flatten_injective h]

theorem not_mem_flatten (b : BoundTree) {c : Char} (h : isDateChar c = false) (hc : c ≠ '*') :
    c ∉ b.flatten := by
  rcases b with _ | d
  · simpa [flatten] using hc
  · exact d.not_mem_flatten h

theorem blank_not_mem_flatten (b : BoundTree) : ' ' ∉ b.flatten :=
  b.not_mem_flatten (by decide) (by decide)

/-- No bound begins with a bracket. -/
theorem bracket_not_mem_flatten (b : BoundTree) : '[' ∉ b.flatten :=
  b.not_mem_flatten (by decide) (by decide)

end BoundTree

/-- What follows the opening bracket is cut between the bounds. -/
theorem cut?_flatten (b : BoundTree) (after : List Char) :
    Text.cut? Range.separator (b.flatten ++ Range.separator ++ after) =
      some (b.flatten, after) :=
  Text.cut?_append b.blank_not_mem_flatten after

/-- **A text is a range in one way at most.** -/
theorem RangeTree.flatten_injective {x y : RangeTree} (h : x.flatten = y.flatten) : x = y := by
  have hsingle (b l u : BoundTree) : (single b).flatten ≠ (between l u).flatten := fun he =>
    b.bracket_not_mem_flatten (by rw [show b.flatten = _ from he]; simp [flatten])
  rcases x with b | ⟨l, u⟩ <;> rcases y with b' | ⟨l', u'⟩
  · rw [BoundTree.flatten_injective h]
  · exact absurd h (hsingle b l' u')
  · exact absurd h.symm (hsingle b' l u)
  · simp only [flatten, List.cons.injEq, true_and, List.append_cancel_right_eq] at h
    have hcut := cut?_flatten l u.flatten
    rw [show l.flatten ++ Range.separator ++ u.flatten = _ from h] at hcut
    have hboth := hcut.symm.trans (cut?_flatten l' u'.flatten)
    simp only [Option.some.injEq, Prod.mk.injEq] at hboth
    rw [BoundTree.flatten_injective hboth.1, BoundTree.flatten_injective hboth.2]

/-- The characters of ranges. -/
def isRangeChar (c : Char) : Bool := isDateChar c || ['*', '[', ']', ' ', 'O'].contains c

theorem BoundTree.isRangeChar_of_mem_flatten {b : BoundTree} {c : Char} (h : c ∈ b.flatten) :
    isRangeChar c := by
  rcases b with _ | d
  · obtain rfl := List.mem_singleton.1 h
    decide
  · rw [isRangeChar, DateTree.isDateChar_of_mem_flatten c h, Bool.true_or]

theorem RangeTree.isRangeChar_of_mem_flatten {x : RangeTree} {c : Char} (h : c ∈ x.flatten) :
    isRangeChar c := by
  rcases x with b | ⟨l, u⟩
  · exact b.isRangeChar_of_mem_flatten h
  · have hseparator : ∀ c ∈ [' ', 'T', 'O', ' '], isRangeChar c := List.all_eq_true.1 rfl
    rw [flatten, List.mem_cons, List.mem_append, List.mem_append, List.mem_append,
      List.mem_singleton] at h
    rcases h with rfl | ((h | h) | h) | rfl
    · decide
    · exact l.isRangeChar_of_mem_flatten h
    · exact hseparator c h
    · exact u.isRangeChar_of_mem_flatten h
    · decide

end DateSpan.Grammar

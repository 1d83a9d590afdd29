import DateSpan.Proofs.Nesting
import DateSpan.Proofs.RoundTrip.Canonical
import DateSpan.Range.Edit

/-!
# Ranges made anew at another precision

The stored instants of a range may be rounded once more, at any precision. Outward, with the lower
bound moved down and the upper bound up, this always makes a range (`widen_eq`), and two of these
rebuilds are one at the coarser precision (`widened_widened`), since two roundings in one direction
are.

Inward the bounds move towards each other, and may move past each other. They do if and only if they
lie in one period, and this period is longer than a millisecond:

    roundUp_le_roundDown_iff :
      p.roundUp i ≤ p.roundDown j ↔
        p = millisecond ∨ p.period (.ofInstant i) ≠ p.period (.ofInstant j)
-/

namespace DateSpan

open Grammar

/-! ## Roundings inward -/

namespace Precision

open DateTime

variable {p q : Precision} {edge : Edge} {i j : Int}

/-- Instants that agree down to the precision are in one period, and no others. -/
theorem period_eq_period_iff (hi : InCalendar i) :
    p.period (ofInstant i) = p.period (ofInstant j) ↔
      (ofInstant i).fieldsTo p = (ofInstant j).fieldsTo p := by
  constructor
  · intro h
    have hmem : i ∈ p.period (ofInstant i) := ⟨hi, rfl⟩
    rw [h] at hmem
    exact hmem.2
  · intro h
    simp only [period, h]

theorem eq_millisecond_of_le (h : millisecond ≤ p) : p = millisecond := by
  have hle : p ≤ millisecond := by cases p <;> decide
  exact rank_inj.1 (Nat.le_antisymm hle h)

/-- Periods are longer than a millisecond, except at the millisecond: one ends with the milliseconds
at 999 and begins with them at 0. -/
theorem roundDown_lt_roundUp (hp : p ≠ millisecond) (h : InCalendar i) :
    p.roundDown i < p.roundUp i := by
  have ht := valid_ofInstant h
  have hcoarse : ¬ millisecond ≤ p := mt eq_millisecond_of_le hp
  apply Int.lt_iff_le_and_ne.2
  refine ⟨Int.le_trans (roundDown_le h) (le_roundUp h), ?_⟩
  intro heq
  rw [roundDown_eq p h, roundUp_eq p h] at heq
  have hdate : (ofInstant i).floor p = (ofInstant i).ceil p := by
    rw [← ofInstant_toInstant (floor_valid p ht), heq, ofInstant_toInstant (ceil_valid p ht)]
  have hmilli := congrArg milli hdate
  simp only [floor, ceil, if_neg hcoarse] at hmilli
  exact absurd hmilli (by decide)

/-- **Roundings inward keep two instants in order** unless there is but one period for both. -/
theorem roundUp_le_roundDown_iff (hi : InCalendar i) (hj : InCalendar j) (hij : i ≤ j) :
    p.roundUp i ≤ p.roundDown j ↔
      p = millisecond ∨ p.period (ofInstant i) ≠ p.period (ofInstant j) := by
  rw [Ne, period_eq_period_iff hi]
  constructor
  · intro h
    by_contra hno
    obtain ⟨hp, hsame⟩ := not_or.1 hno
    have hround : p.roundUp i = p.roundUp j := round_congr hi hj (Classical.not_not.1 hsame)
    have hlt := roundDown_lt_roundUp hp hj
    omega
  · intro h
    rcases h with rfl | hfields
    · rw [roundUp, roundDown, round_millisecond, round_millisecond]
      exact hij
    · exact Int.le_of_lt (roundUp_lt_roundDown hi hj hij hfields)

/-- What is written of an instant down to a precision are its fields down to it. -/
theorem write?_congr (hi : InCalendar i) (hj : InCalendar j)
    (h : (ofInstant i).fieldsTo p = (ofInstant j).fieldsTo p) : p.write? i = p.write? j := by
  have hi' := valid_ofInstant hi
  have hj' := valid_ofInstant hj
  have htree : DateTree.ofDateTime p _ hi' = DateTree.ofDateTime p _ hj' := by
    rw [← DateTree.canonical_ofDateTime hi', ← DateTree.canonical_ofDateTime hj',
      DateTree.canonical_eq_canonical_iff, DateTree.alike_iff, DateTree.precision_ofDateTime,
      DateTree.precision_ofDateTime, DateTree.dateTime_ofDateTime, DateTree.dateTime_ofDateTime,
      DateTime.fieldsTo_floor, DateTime.fieldsTo_floor]
    exact ⟨rfl, h⟩
  have htext := congrArg DateTree.flatten htree
  rw [DateTree.flatten_ofDateTime, DateTree.flatten_ofDateTime] at htext
  have hwritten {k : Int} (hk : InCalendar k) :
      p.write? k = some (p.writeDate (ofInstant k)) := write?_eq_some_iff.2 ⟨hk, rfl⟩
  rw [hwritten hi, hwritten hj, htext]

theorem write?_round (h : InCalendar i) : p.write? (p.round edge i) = p.write? i :=
  write?_congr (inCalendar_round h) h (fieldsTo_round h)

end Precision

/-! ## Moments and bounds -/

namespace Moment

/-- The moment at one end of its period at a precision, and meant to that precision. -/
def roundAt (p : Precision) (edge : Edge) (m : Moment) : Moment where
  instant := p.round edge m.instant
  precision := p
  inCalendar := Precision.inCalendar_round m.inCalendar

/-- The same instant at another precision. -/
def relabel (p : Precision) (m : Moment) : Moment := ⟨m.instant, p, m.inCalendar⟩

/-- Two roundings in one direction are one at the coarser precision, labelled with the second. -/
theorem roundAt_roundAt (p q : Precision) (edge : Edge) (m : Moment) :
    (m.roundAt p edge).roundAt q edge = (m.roundAt (p.coarser q) edge).relabel q := by
  simp only [roundAt, relabel, Precision.round_round_eq_coarser, Precision.coarser_comm q p]

theorem exact_roundAt (p : Precision) (edge : Edge) (m : Moment) :
    Bound.exact (p.round edge m.instant) p = .ok (.bounded (m.roundAt p edge)) :=
  Bound.exact_eq_ok_iff.2 ⟨_, rfl⟩

theorem exact_relabel (p : Precision) (m : Moment) :
    Bound.exact m.instant p = .ok (.bounded (m.relabel p)) :=
  Bound.exact_eq_ok_iff.2 ⟨_, rfl⟩

end Moment

namespace Bound

/-- Changes the moment of a bound, if it has one. -/
def map (f : Moment → Moment) : Bound → Bound
  | unbounded => unbounded
  | bounded m => bounded (f m)

/-- On the side that the edge names, the first bound is as far out as the second one or farther, or
both are open. -/
def Covers : Edge → Bound → Bound → Prop
  | .lower, bounded m, bounded n => m.instant ≤ n.instant
  | .upper, bounded m, bounded n => n.instant ≤ m.instant
  | _, unbounded, unbounded => True
  | _, _, _ => False

/-- Whatever the instant, the three ways to make a bound of it succeed together or are refused
together, for the same reason. -/
theorem exact_lower_upper (i : Int) (p : Precision) :
    (InCalendar i → ∃ b l u, exact i p = .ok b ∧ lower i p = .ok l ∧ upper i p = .ok u) ∧
    (¬ InCalendar i → exact i p = .error (.invalidArgument (.outsideCalendar i)) ∧
      lower i p = exact i p ∧ upper i p = exact i p) := by
  constructor
  · intro h
    let m : Moment := ⟨i, p, h⟩
    exact ⟨_, _, _, m.exact_relabel p, m.exact_roundAt p .lower, m.exact_roundAt p .upper⟩
  · intro h
    refine ⟨dif_neg h, ?_, ?_⟩
    · rw [lower, Precision.roundDown, Precision.round_of_not_inCalendar h]
    · rw [upper, Precision.roundUp, Precision.round_of_not_inCalendar h]

end Bound

/-! ## Ranges -/

namespace Range

/-- Keeps instants in order: the one that the first function makes of an instant is not after the
one that the second function makes of an instant that is not before it. -/
def KeepsOrder (f g : Moment → Moment) : Prop :=
  ∀ l u : Moment, l.instant ≤ u.instant → (f l).instant ≤ (g u).instant

theorem KeepsOrder.inOrder_map {f g : Moment → Moment} (hfg : KeepsOrder f g) {l u : Bound}
    (h : l.InOrder u) : (l.map f).InOrder (u.map g) := by
  rcases l with _ | m
  · trivial
  · rcases u with _ | n
    · trivial
    · exact hfg m n h

/-- Changes the moments of a range, those of lower bounds in one way and that of an upper bound in
another. -/
def map (f g : Moment → Moment) (hfg : KeepsOrder f g) : Range → Range
  | single b => single (b.map f)
  | between l u h => between (l.map f) (u.map g) (hfg.inOrder_map h)

variable {f g : Moment → Moment} {hfg : KeepsOrder f g} {p q : Precision}

theorem map_map {f' g' : Moment → Moment} (hfg' : KeepsOrder f' g') (r : Range) :
    (r.map f g hfg).map f' g' hfg' =
      r.map (f' ∘ f) (g' ∘ g) fun l u h => hfg' _ _ (hfg l u h) := by
  rcases r with (_ | _) | ⟨_ | _, _ | _, _⟩ <;> rfl

theorem map_congr {f' g' : Moment → Moment} (hf : f = f') (hg : g = g')
    {hfg' : KeepsOrder f' g'} (r : Range) : r.map f g hfg = r.map f' g' hfg' := by
  subst hf hg
  rfl

theorem remake_eq {make : Int → Precision → Except Error Bound}
    (hmake : ∀ m, make m.instant p = .ok (.bounded (f m))) (b : Bound) :
    remake make p b = .ok (b.map f) := by
  rcases b with _ | m
  · rfl
  · exact hmake m

/-- Bounds that are made of each instant make a range of each range. -/
theorem rebuild_eq {makeLower makeUpper : Int → Precision → Except Error Bound}
    (hl : ∀ m, makeLower m.instant p = .ok (.bounded (f m)))
    (hu : ∀ m, makeUpper m.instant p = .ok (.bounded (g m))) (hfg : KeepsOrder f g) (r : Range) :
    r.rebuild makeLower makeUpper p = .ok (r.map f g hfg) := by
  rcases r with b | ⟨l, u, h⟩
  · rw [rebuild, remake_eq hl]
    rfl
  · rw [rebuild, remake_eq hl, remake_eq hu]
    exact ofBounds_eq_ok_iff.2 ⟨hfg.inOrder_map h, rfl⟩

/-! ### Outward -/

theorem keepsOrder_roundAt (p : Precision) :
    KeepsOrder (Moment.roundAt p .lower) (Moment.roundAt p .upper) := by
  intro l u h
  exact Precision.roundDown_le_roundUp l.inCalendar u.inCalendar h

theorem keepsOrder_relabel (p : Precision) :
    KeepsOrder (Moment.relabel p) (Moment.relabel p) := fun _ _ h => h

/-- The range with its bounds at the outer ends of their periods. -/
def widened (p : Precision) (r : Range) : Range := r.map _ _ (keepsOrder_roundAt p)

/-- The range with the same instants at another precision. -/
def relabelled (p : Precision) (r : Range) : Range := r.map _ _ (keepsOrder_relabel p)

theorem widen_eq (p : Precision) (r : Range) : r.widen p = .ok (r.widened p) :=
  rebuild_eq (Moment.exact_roundAt p .lower) (Moment.exact_roundAt p .upper) _ r

theorem relabel_eq (p : Precision) (r : Range) : r.relabel p = .ok (r.relabelled p) :=
  rebuild_eq (Moment.exact_relabel p) (Moment.exact_relabel p) _ r

/-- **Two rebuilds outward are one**, at the coarser precision and with the label of the second. -/
theorem widened_widened (p q : Precision) (r : Range) :
    (r.widened p).widened q = (r.widened (p.coarser q)).relabelled q := by
  rw [widened, widened, widened, relabelled, map_map, map_map]
  apply map_congr
  · funext m
    exact m.roundAt_roundAt p q .lower
  · funext m
    exact m.roundAt_roundAt p q .upper

theorem widened_widened_self (p : Precision) (r : Range) :
    (r.widened p).widened p = r.widened p := by
  rw [widened_widened, Precision.coarser_eq_left (Nat.le_refl _), relabelled, widened, map_map]
  rfl

/-- The ranges have the same shape, and the instants of the first one enclose those of the second.
-/
def Encloses : Range → Range → Prop
  | single b, single c => b.Covers .lower c
  | between l u _, between l' u' _ => l.Covers .lower l' ∧ u.Covers .upper u'
  | _, _ => False

theorem encloses_map (hf : ∀ m, (f m).instant ≤ m.instant) (hg : ∀ m, m.instant ≤ (g m).instant)
    (r : Range) : (r.map f g hfg).Encloses r := by
  have hlower (b : Bound) : (b.map f).Covers .lower b := by
    rcases b with _ | m
    · trivial
    · exact hf m
  have hupper (b : Bound) : (b.map g).Covers .upper b := by
    rcases b with _ | m
    · trivial
    · exact hg m
  rcases r with b | ⟨l, u, h⟩
  · exact hlower b
  · exact ⟨hlower l, hupper u⟩

theorem widened_encloses (p : Precision) (r : Range) : (r.widened p).Encloses r :=
  encloses_map (fun m => Precision.roundDown_le m.inCalendar)
    (fun m => Precision.le_roundUp m.inCalendar) r

theorem precision_of_mem_moments_widened (p : Precision) (r : Range) :
    ∀ m ∈ (r.widened p).moments, m.precision = p := by
  rcases r with (_ | _) | ⟨_ | _, _ | _, _⟩ <;>
    simp [widened, map, Bound.map, moments, lower, upper?, Bound.moment?, Moment.roundAt]

/-! ### Inward -/

section
variable {l u : Moment} {h : (Bound.bounded l).InOrder (.bounded u)}

theorem narrow_between (p : Precision) :
    (between (.bounded l) (.bounded u) h).narrow p =
      ofBounds (.bounded (l.roundAt p .upper)) (.bounded (u.roundAt p .lower)) := by
  have hl : remake Bound.upper p (.bounded l) = .ok (.bounded (l.roundAt p .upper)) :=
    l.exact_roundAt p .upper
  have hu : remake Bound.lower p (.bounded u) = .ok (.bounded (u.roundAt p .lower)) :=
    u.exact_roundAt p .lower
  rw [narrow, rebuild, hl, hu, ok_bind, ok_bind]

theorem narrow_between_eq_ok_iff {r : Range} :
    (between (.bounded l) (.bounded u) h).narrow p = .ok r ↔
      ∃ hin : p.roundUp l.instant ≤ p.roundDown u.instant,
        r = between (.bounded (l.roundAt p .upper)) (.bounded (u.roundAt p .lower)) hin := by
  rw [narrow_between, ofBounds_eq_ok_iff]
  rfl

/-- A rebuild inward is refused in the words of one date, the period that both bounds are in. -/
theorem ordering_of_narrow_between {e : Error}
    (he : (between (.bounded l) (.bounded u) h).narrow p = .error e) :
    ∃ text, p.write? l.instant = some text ∧ p.write? u.instant = some text ∧
      e = .ordering (String.ofList text) (String.ofList text) := by
  rw [narrow_between, ofBounds_eq_error_iff] at he
  obtain ⟨_, _, hlower, hupper, hinv, rfl⟩ := he
  cases hlower
  cases hupper
  have hno := mt (Precision.roundUp_le_roundDown_iff l.inCalendar u.inCalendar h).2
    (Int.not_le.2 hinv)
  have hsame := Classical.not_not.1 (not_or.1 hno).2
  rw [Precision.period_eq_period_iff l.inCalendar] at hsame
  have hl : p.write? l.instant = some (l.roundAt p .upper).text := by
    rw [← Moment.write?_instant]
    exact (Precision.write?_round l.inCalendar).symm
  have hu : p.write? u.instant = some (u.roundAt p .lower).text := by
    rw [← Moment.write?_instant]
    exact (Precision.write?_round u.inCalendar).symm
  have hwritten := Precision.write?_congr l.inCalendar u.inCalendar hsame
  rw [hl, hu, Option.some.injEq] at hwritten
  exact ⟨_, hl, hwritten ▸ hu, by rw [hwritten]⟩

end

/-- **What becomes of a range at another precision.** An instant makes a bound in all three ways or
in none. Outward, a range is always made anew: with the same shape and the same open sides, at the
new precision, and with instants that enclose the old ones. Doing it again changes nothing, and
doing it at a second precision gives the instants of the coarser of the two at the second one.
Inward, two moments make a range if and only if they are in different periods or the precision is
the millisecond, and the new instants are then within the old ones; otherwise the error is one of
ordering, with the date of the one period in the place of both bounds. -/
theorem rebuilt_at_precision :
    (∀ (i : Int) (p : Precision),
      (InCalendar i → ∃ b l u,
        Bound.exact i p = .ok b ∧ Bound.lower i p = .ok l ∧ Bound.upper i p = .ok u) ∧
      (¬ InCalendar i → Bound.exact i p = .error (.invalidArgument (.outsideCalendar i)) ∧
        Bound.lower i p = Bound.exact i p ∧ Bound.upper i p = Bound.exact i p)) ∧
    (∀ (r : Range) (p : Precision), ∃ r', r.widen p = .ok r' ∧ r'.Encloses r ∧
      (∀ m ∈ r'.moments, m.precision = p) ∧ r'.widen p = .ok r' ∧
      ∀ q, ∃ c r'', r.widen (p.coarser q) = .ok c ∧ c.relabel q = .ok r'' ∧
        r'.widen q = .ok r'') ∧
    (∀ (l u : Moment) (h : (Bound.bounded l).InOrder (.bounded u)) (p : Precision),
      let r := between (.bounded l) (.bounded u) h
      ((∃ r', r.narrow p = .ok r') ↔
        p = .millisecond ∨
          p.period (.ofInstant l.instant) ≠ p.period (.ofInstant u.instant)) ∧
      (∀ r', r.narrow p = .ok r' → r.Encloses r' ∧ ∀ m ∈ r'.moments, m.precision = p) ∧
      (∀ e, r.narrow p = .error e → ∃ text, p.write? l.instant = some text ∧
        p.write? u.instant = some text ∧
        e = .ordering (String.ofList text) (String.ofList text))) := by
  refine ⟨Bound.exact_lower_upper, ?_, ?_⟩
  · intro r p
    refine ⟨r.widened p, r.widen_eq p, r.widened_encloses p,
      r.precision_of_mem_moments_widened p, ?_, ?_⟩
    · rw [widen_eq, widened_widened_self]
    · intro q
      refine ⟨_, _, r.widen_eq _, relabel_eq q _, ?_⟩
      rw [widen_eq, widened_widened]
  · intro l u h p r
    refine ⟨?_, ?_, fun e => ordering_of_narrow_between⟩
    · rw [← Precision.roundUp_le_roundDown_iff l.inCalendar u.inCalendar h]
      simp only [r, narrow_between_eq_ok_iff]
      constructor
      · rintro ⟨-, hin, -⟩
        exact hin
      · intro hin
        exact ⟨_, hin, rfl⟩
    · intro r' hr'
      obtain ⟨_, rfl⟩ := narrow_between_eq_ok_iff.1 hr'
      refine ⟨⟨Precision.le_roundUp l.inCalendar, Precision.roundDown_le u.inCalendar⟩, ?_⟩
      simp [moments, lower, upper?, Bound.moment?, Moment.roundAt]

/-- Noon of the leap day and noon of the day before leave two instants between them at the day, the
last of the one and the first of the other, and none at the month. -/
theorem rebuilt_at_precision_leapDay :
    let l : Moment := ⟨1330430400000, .hour, by decide⟩
    let u : Moment := ⟨1330516800000, .hour, by decide⟩
    let r := between (.bounded l) (.bounded u) (by decide)
    (∃ r', r.narrow .day = .ok r' ∧ r.Encloses r') ∧
      r.narrow .month = .error (.ordering "2012-02" "2012-02") ∧
      (∃ b, Bound.lower 1330430400000 .year = .ok b) ∧
      Bound.upper 8210266876800000 .year =
        .error (.invalidArgument (.outsideCalendar 8210266876800000)) := by
  intro l u r
  obtain ⟨hbounds, -, hinward⟩ := rebuilt_at_precision
  obtain ⟨hday, hwithin, -⟩ := hinward l u (by decide) .day
  obtain ⟨hmonth, -, hrefused⟩ := hinward l u (by decide) .month
  refine ⟨?_, ?_, ?_, ?_⟩
  · have hdays : Precision.day.period (.ofInstant l.instant) ≠
        Precision.day.period (.ofInstant u.instant) := by
      rw [Ne, Precision.period_eq_period_iff l.inCalendar]
      decide
    obtain ⟨r', hr'⟩ := hday.2 (.inr hdays)
    exact ⟨r', hr', (hwithin r' hr').1⟩
  · have hmonths : Precision.month.period (.ofInstant l.instant) =
        Precision.month.period (.ofInstant u.instant) :=
      (Precision.period_eq_period_iff l.inCalendar).2 (by decide)
    rcases hnarrow : r.narrow .month with e | r'
    · obtain ⟨text, htext, -, rfl⟩ := hrefused e hnarrow
      obtain rfl : "2012-02".toList = text := Option.some.inj (Eq.trans (by decide) htext)
      rfl
    · rcases hmonth.1 ⟨r', hnarrow⟩ with hp | hne
      · cases hp
      · exact absurd hmonths hne
  · obtain ⟨_, b, _, _, hb, _⟩ := (hbounds 1330430400000 .year).1 (by decide)
    exact ⟨b, hb⟩
  · obtain ⟨hexact, -, hupper⟩ := (hbounds 8210266876800000 .year).2 (by decide)
    exact hupper.trans hexact

end Range

end DateSpan

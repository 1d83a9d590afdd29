import DateSpan.Proofs.RangeJson
import DateSpan.Proofs.Rebuilding
import DateSpan.Proofs.RoundTrip.Bytes

/-!
# Editing ranges

An edit of a range asks for one bound or for two (`Edit.draft`) and makes a range of them
(`Edit.apply_eq`). So there is one reason only to refuse it: two bounds that are inverted. Edits
that keep bounds in order are never refused, and the others are those that swap the bounds, replace
one of them, or move them inward.

A range may be edited many times, where an edit that is refused leaves it as it is: `Range.edited`.
Two things hold of all sequences of edits, since they hold of each edit:

* `edited_trips`: a range that is only sent through its forms is as it was or settled, and has the
  text it had.
* `edited_in_period`: no bound leaves the period of a bound that was there before, at a precision at
  which periods are not cut.
-/

namespace DateSpan

/-! ## What an edit asks for -/

theorem Bound.inOrder_unbounded (b : Bound) : b.InOrder .unbounded := by
  cases b <;> trivial

/-- One bound, or a lower and an upper one. -/
abbrev Draft := Bound × Option Bound

namespace Range

def bounds (r : Range) : Draft := (r.lower, r.upper?)

/-- The range of one bound or of two. -/
def ofDraft : Draft → Except Error Range
  | (b, none) => .ok (single b)
  | (l, some u) => ofBounds l u

theorem ofDraft_bounds (r : Range) : ofDraft r.bounds = .ok r := by
  rcases r with b | ⟨l, u, h⟩
  · rfl
  · exact ofBounds_eq_ok_iff.2 ⟨h, rfl⟩

theorem bounds_of_ofDraft {d : Draft} {r : Range} (h : ofDraft d = .ok r) : r.bounds = d := by
  rcases d with ⟨l, _ | u⟩
  · cases h
    rfl
  · obtain ⟨_, rfl⟩ := ofBounds_eq_ok_iff.1 h
    rfl

theorem inOrder_lower_upper (r : Range) : r.lower.InOrder r.upper := by
  rcases r with (_ | m) | ⟨l, u, h⟩
  · trivial
  · exact Int.le_refl _
  · exact h

theorem ofDraft_eq_error_iff {d : Draft} {e : Error} :
    ofDraft d = .error e ↔ ∃ l u : Moment, d = (.bounded l, some (.bounded u)) ∧
      u.instant < l.instant ∧ e = .ordering (String.ofList l.text) (String.ofList u.text) := by
  rcases d with ⟨l, _ | u⟩
  · simp [ofDraft]
  · simp [ofDraft, ofBounds_eq_error_iff, and_assoc]

variable {f g : Moment → Moment} {p : Precision}

theorem bounds_map {hfg : KeepsOrder f g} (r : Range) :
    (r.map f g hfg).bounds = (r.lower.map f, r.upper?.map fun u => u.map g) := by
  rcases r with b | ⟨l, u, h⟩ <;> rfl

theorem bounds_settle (r : Range) :
    r.settle.bounds =
      (r.lower.map (.settle .lower), r.upper?.map fun u => u.map (.settle .upper)) := by
  rcases r with (_ | _) | ⟨_ | _, _ | _, _⟩ <;> rfl

theorem rebuild_eq_ofDraft {makeLower makeUpper : Int → Precision → Except Error Bound}
    (hl : ∀ m, makeLower m.instant p = .ok (.bounded (f m)))
    (hu : ∀ m, makeUpper m.instant p = .ok (.bounded (g m))) (r : Range) :
    r.rebuild makeLower makeUpper p =
      ofDraft (r.lower.map f, r.upper?.map fun u => u.map g) := by
  rcases r with b | ⟨l, u, h⟩
  · rw [rebuild, remake_eq hl]
    rfl
  · rw [rebuild, remake_eq hl, remake_eq hu]
    rfl

end Range

namespace Edit

/-- The bounds that an edit asks for. -/
def draft (r : Range) : Edit → Draft
  | viaText | viaJson => r.settle.bounds
  | viaBytes => r.bounds
  | onlyLower => (r.lower, none)
  | onlyUpper => (r.upper, none)
  | both => (r.lower, some r.upper)
  | swap => (r.upper, some r.lower)
  | openLow => (.unbounded, some r.upper)
  | openHigh => (r.lower, some .unbounded)
  | setLower b => (b, some r.upper)
  | setUpper b => (r.lower, some b)
  | widen p => (r.lower.map (.roundAt p .lower), r.upper?.map fun u => u.map (.roundAt p .upper))
  | narrow p => (r.lower.map (.roundAt p .upper), r.upper?.map fun u => u.map (.roundAt p .lower))
  | relabel p => (r.lower.map (.relabel p), r.upper?.map fun u => u.map (.relabel p))

/-- **An edit makes a range of the bounds that it asks for.** -/
theorem apply_eq (r : Range) (e : Edit) :
    e.apply r = (Range.ofDraft (e.draft r)).mapError .error := by
  cases e with
  | viaText => rw [apply, draft, Range.parse_toString, Range.ofDraft_bounds]
  | viaBytes => rw [apply, draft, Wire.decode_encode, Range.ofDraft_bounds]
  | viaJson =>
    rw [apply, draft, Range.ofJson_write, Range.parse_toString, Range.ofDraft_bounds]
    rfl
  | widen p =>
    have h : r.widen p = Range.ofDraft ((widen p).draft r) :=
      r.rebuild_eq_ofDraft (Moment.exact_roundAt p .lower) (Moment.exact_roundAt p .upper)
    rw [apply, h]
  | narrow p =>
    have h : r.narrow p = Range.ofDraft ((narrow p).draft r) :=
      r.rebuild_eq_ofDraft (Moment.exact_roundAt p .upper) (Moment.exact_roundAt p .lower)
    rw [apply, h]
  | relabel p =>
    have h : r.relabel p = Range.ofDraft ((relabel p).draft r) :=
      r.rebuild_eq_ofDraft (Moment.exact_relabel p) (Moment.exact_relabel p)
    rw [apply, h]
  | _ => rfl

/-- **An edit is refused only for two moments in the wrong order**, and the error has their dates.
It is never refused for a document that cannot be read, nor for an instant without a date. -/
theorem apply_eq_error_iff {r : Range} {e : Edit} {fault : EditFault} :
    e.apply r = .error fault ↔ ∃ l u : Moment, e.draft r = (.bounded l, some (.bounded u)) ∧
      u.instant < l.instant ∧
      fault = .error (.ordering (String.ofList l.text) (String.ofList u.text)) := by
  rw [apply_eq, mapError_eq_error_iff]
  simp only [Range.ofDraft_eq_error_iff]
  constructor
  · rintro ⟨_, ⟨l, u, hdraft, hlt, rfl⟩, rfl⟩
    exact ⟨l, u, hdraft, hlt, rfl⟩
  · rintro ⟨l, u, hdraft, hlt, rfl⟩
    exact ⟨_, ⟨l, u, hdraft, hlt, rfl⟩, rfl⟩

theorem apply_eq_ok_iff {r r' : Range} {e : Edit} :
    e.apply r = .ok r' ↔ Range.ofDraft (e.draft r) = .ok r' := by
  rw [apply_eq, mapError_eq_ok_iff]

/-- The edit keeps bounds in order, or asks for one only. -/
def KeepsOrder : Edit → Prop
  | swap | setLower _ | setUpper _ | narrow _ => False
  | _ => True

/-- Edits that keep bounds in order are never refused. -/
theorem exists_apply_eq_ok {e : Edit} (h : e.KeepsOrder) (r : Range) :
    ∃ r', e.apply r = .ok r' := by
  simp only [apply_eq_ok_iff]
  cases e with
  | viaText => exact ⟨_, r.settle.ofDraft_bounds⟩
  | viaBytes => exact ⟨_, r.ofDraft_bounds⟩
  | viaJson => exact ⟨_, r.settle.ofDraft_bounds⟩
  | onlyLower => exact ⟨_, rfl⟩
  | onlyUpper => exact ⟨_, rfl⟩
  | both => exact ⟨_, Range.ofBounds_eq_ok_iff.2 ⟨r.inOrder_lower_upper, rfl⟩⟩
  | openLow => exact ⟨_, Range.ofBounds_eq_ok_iff.2 ⟨trivial, rfl⟩⟩
  | openHigh => exact ⟨_, Range.ofBounds_eq_ok_iff.2 ⟨r.lower.inOrder_unbounded, rfl⟩⟩
  | widen p =>
    have h : draft r (widen p) = (r.widened p).bounds := (Range.bounds_map r).symm
    exact ⟨_, h ▸ (r.widened p).ofDraft_bounds⟩
  | relabel p =>
    have h : draft r (relabel p) = (r.relabelled p).bounds := (Range.bounds_map r).symm
    exact ⟨_, h ▸ (r.relabelled p).ofDraft_bounds⟩
  | swap => exact h.elim
  | setLower b => exact h.elim
  | setUpper b => exact h.elim
  | narrow p => exact h.elim

end Edit

/-! ## Sequences of edits -/

namespace Range

/-- The range after an edit, as it was if the edit is refused. -/
def edit (r : Range) (e : Edit) : Range :=
  match e.apply r with
  | .ok r' => r'
  | .error _ => r

/-- The range after a sequence of edits. -/
def edited (r : Range) (es : List Edit) : Range := es.foldl edit r

theorem edit_eq_or (r : Range) (e : Edit) : ofDraft (e.draft r) = .ok (r.edit e) ∨ r.edit e = r := by
  rw [edit]
  split
  · next r' h => exact .inl (Edit.apply_eq_ok_iff.1 h)
  · exact .inr rfl

theorem edit_of_draft {r r' : Range} {e : Edit} (h : e.draft r = r'.bounds) : r.edit e = r' := by
  rw [edit, Edit.apply_eq_ok_iff.2 (h ▸ r'.ofDraft_bounds)]

end Range

/-! ## Through text, bytes and documents -/

/-- A moment that is moved within its period has the same text. -/
theorem Moment.text_settle (edge : Edge) (m : Moment) : (m.settle edge).text = m.text := by
  have hround : (m.settle edge).precision.write? (m.settle edge).instant =
      m.precision.write? m.instant := Precision.write?_round m.inCalendar
  rw [Moment.write?_instant, Moment.write?_instant] at hround
  exact Option.some.inj hround

theorem Bound.text_settle (edge : Edge) (b : Bound) : (b.settle edge).text = b.text := by
  rcases b with _ | m
  · rfl
  · exact m.text_settle edge

/-- The edit sends a range through one of its forms. -/
def Edit.IsTrip : Edit → Prop
  | viaText | viaBytes | viaJson => True
  | _ => False

namespace Range

theorem toString_settle (r : Range) : toString r.settle = toString r := by
  have htext : r.settle.text = r.text := by
    rcases r with b | ⟨l, u, h⟩
    · exact b.text_settle .lower
    · simp only [settle, text, Bound.text_settle]
  exact congrArg String.ofList htext

theorem settle_settle (r : Range) : r.settle.settle = r.settle :=
  settle_eq_self_iff.2 (settled_of_parse r.parse_toString)

theorem edit_of_isTrip {e : Edit} (h : e.IsTrip) (r : Range) :
    r.edit e = r ∨ r.edit e = r.settle := by
  cases e with
  | viaText => exact .inr (edit_of_draft rfl)
  | viaBytes => exact .inl (edit_of_draft rfl)
  | viaJson => exact .inr (edit_of_draft rfl)
  | _ => exact h.elim

/-- **However often a range is sent through its forms**, it is as it was or settled, and its text
is the one it had. -/
theorem edited_trips {es : List Edit} (h : ∀ e ∈ es, e.IsTrip) (r : Range) :
    (r.edited es = r ∨ r.edited es = r.settle) ∧ toString (r.edited es) = toString r := by
  induction es generalizing r with
  | nil => exact ⟨.inl rfl, rfl⟩
  | cons e es ih =>
    obtain ⟨he, hes⟩ := List.forall_mem_cons.1 h
    rw [edited, List.foldl_cons, ← edited]
    rcases edit_of_isTrip he r with hr | hr
    · rw [hr]
      exact ih hes r
    · -- A settled range stays settled.
      obtain ⟨hsame, htext⟩ := ih hes r.settle
      rw [settle_settle, or_self] at hsame
      rw [hr]
      exact ⟨.inr hsame, htext.trans r.toString_settle⟩

end Range

/-! ## Periods that are not left -/

/-- The moment is in the period of one of the instants, and it is meant to a precision that is no
coarser. -/
def Moment.StaysIn (p : Precision) (s : Set Int) (m : Moment) : Prop :=
  p ≤ m.precision ∧ ∃ i ∈ s, m.instant ∈ p.period (.ofInstant i)

def Bound.StaysIn (p : Precision) (s : Set Int) (b : Bound) : Prop :=
  ∀ m, b.moment? = some m → m.StaysIn p s

def Draft.StaysIn (p : Precision) (s : Set Int) (d : Draft) : Prop :=
  d.1.StaysIn p s ∧ ∀ u, d.2 = some u → u.StaysIn p s

namespace Edit

/-- The bound that an edit brings along. -/
def bound? : Edit → Option Bound
  | setLower b | setUpper b => some b
  | _ => none

/-- The precision that an edit names. -/
def precision? : Edit → Option Precision
  | widen p | narrow p | relabel p => some p
  | _ => none

/-- The edit cuts no periods of the precision, and brings no bound along from outside of them. -/
structure StaysIn (p : Precision) (s : Set Int) (e : Edit) : Prop where
  bound : ∀ b, e.bound? = some b → b.StaysIn p s
  precision : ∀ q, e.precision? = some q → p ≤ q

end Edit

section
variable {p q : Precision} {s : Set Int}

/-- Rounding at a precision that is no coarser does not leave the period, in either direction. -/
theorem Moment.StaysIn.roundAt {m : Moment} (h : m.StaysIn p s) (hq : p ≤ q) (edge : Edge) :
    (m.roundAt q edge).StaysIn p s := by
  obtain ⟨-, i, hi, hmem⟩ := h
  refine ⟨hq, i, hi, Precision.inCalendar_round m.inCalendar, ?_⟩
  rw [← hmem.2]
  exact Precision.fieldsTo_congr_of_le hq (Precision.fieldsTo_round m.inCalendar)

theorem Moment.StaysIn.settle {m : Moment} (h : m.StaysIn p s) (edge : Edge) :
    (m.settle edge).StaysIn p s := h.roundAt h.1 edge

theorem Moment.StaysIn.relabel {m : Moment} (h : m.StaysIn p s) (hq : p ≤ q) :
    (m.relabel q).StaysIn p s := ⟨hq, h.2⟩

theorem Bound.StaysIn.map {b : Bound} {f : Moment → Moment}
    (hf : ∀ m, m.StaysIn p s → (f m).StaysIn p s) (h : b.StaysIn p s) : (b.map f).StaysIn p s := by
  intro m hm
  rcases b with _ | n
  · cases hm
  · cases hm
    exact hf n (h n rfl)

theorem Bound.staysIn_unbounded : Bound.unbounded.StaysIn p s := by
  intro m hm
  cases hm

theorem Draft.staysIn_one {b : Bound} (hb : b.StaysIn p s) : Draft.StaysIn p s (b, none) := by
  refine ⟨hb, ?_⟩
  intro u hu
  cases hu

theorem Draft.staysIn_two {l u : Bound} (hl : l.StaysIn p s) (hu : u.StaysIn p s) :
    Draft.StaysIn p s (l, some u) := by
  refine ⟨hl, ?_⟩
  intro v hv
  cases hv
  exact hu

theorem Draft.StaysIn.map {r : Range} {f g : Moment → Moment}
    (hf : ∀ m, m.StaysIn p s → (f m).StaysIn p s) (hg : ∀ m, m.StaysIn p s → (g m).StaysIn p s)
    (h : r.bounds.StaysIn p s) :
    Draft.StaysIn p s (r.lower.map f, r.upper?.map fun u => u.map g) := by
  refine ⟨h.1.map hf, ?_⟩
  intro u hu
  obtain ⟨v, hv, rfl⟩ := Option.map_eq_some_iff.1 hu
  exact (h.2 v hv).map hg

namespace Range

variable {r : Range} {e : Edit} {es : List Edit}

theorem staysIn_settle (h : r.bounds.StaysIn p s) : r.settle.bounds.StaysIn p s := by
  rw [bounds_settle]
  exact h.map (fun _ hm => hm.settle .lower) (fun _ hm => hm.settle .upper)

theorem staysIn_upper (h : r.bounds.StaysIn p s) : r.upper.StaysIn p s := by
  rcases r with b | ⟨l, u, hin⟩
  · exact h.1
  · exact h.2 u rfl

/-- No edit asks for a bound elsewhere. -/
theorem staysIn_draft (h : r.bounds.StaysIn p s) (he : e.StaysIn p s) :
    (e.draft r).StaysIn p s := by
  have hupper := staysIn_upper h
  cases e with
  | viaText => exact staysIn_settle h
  | viaBytes => exact h
  | viaJson => exact staysIn_settle h
  | onlyLower => exact Draft.staysIn_one h.1
  | onlyUpper => exact Draft.staysIn_one hupper
  | both => exact Draft.staysIn_two h.1 hupper
  | swap => exact Draft.staysIn_two hupper h.1
  | openLow => exact Draft.staysIn_two Bound.staysIn_unbounded hupper
  | openHigh => exact Draft.staysIn_two h.1 Bound.staysIn_unbounded
  | setLower b => exact Draft.staysIn_two (he.bound b rfl) hupper
  | setUpper b => exact Draft.staysIn_two h.1 (he.bound b rfl)
  | widen q =>
    have hq := he.precision q rfl
    exact h.map (fun _ hm => hm.roundAt hq .lower) (fun _ hm => hm.roundAt hq .upper)
  | narrow q =>
    have hq := he.precision q rfl
    exact h.map (fun _ hm => hm.roundAt hq .upper) (fun _ hm => hm.roundAt hq .lower)
  | relabel q =>
    have hq := he.precision q rfl
    exact h.map (fun _ hm => hm.relabel hq) (fun _ hm => hm.relabel hq)

theorem staysIn_edit (h : r.bounds.StaysIn p s) (he : e.StaysIn p s) :
    (r.edit e).bounds.StaysIn p s := by
  rcases r.edit_eq_or e with hmade | hsame
  · rw [bounds_of_ofDraft hmade]
    exact staysIn_draft h he
  · rw [hsame]
    exact h

theorem staysIn_edited (h : r.bounds.StaysIn p s) (hes : ∀ e ∈ es, e.StaysIn p s) :
    (r.edited es).bounds.StaysIn p s := by
  induction es generalizing r with
  | nil => exact h
  | cons e es ih =>
    obtain ⟨he, hes⟩ := List.forall_mem_cons.1 hes
    exact ih (staysIn_edit h he) hes

theorem staysIn_bounds_iff : r.bounds.StaysIn p s ↔ ∀ m ∈ r.moments, m.StaysIn p s := by
  rcases r with (_ | _) | ⟨_ | _, _ | _, _⟩ <;>
    simp [Draft.StaysIn, Bound.StaysIn, bounds, moments, lower, upper?, Bound.moment?]

/-- **No sequence of edits carries a bound out of its period.** At a precision that is no finer than
those of the range and of the edits, each moment there is afterwards lies in the period of a moment
that was there before, provided that the bounds which edits bring along do so as well. -/
theorem edited_in_period (hr : ∀ m ∈ r.moments, p ≤ m.precision)
    (hes : ∀ e ∈ es, e.StaysIn p { i | ∃ n ∈ r.moments, n.instant = i }) :
    ∀ m ∈ (r.edited es).moments, ∃ n ∈ r.moments, m.instant ∈ p.period (.ofInstant n.instant) := by
  have hstart : r.bounds.StaysIn p { i | ∃ n ∈ r.moments, n.instant = i } := by
    rw [staysIn_bounds_iff]
    intro m hm
    exact ⟨hr m hm, m.instant, ⟨m, hm, rfl⟩, m.inCalendar, rfl⟩
  intro m hm
  obtain ⟨-, _, ⟨n, hn, rfl⟩, hmem⟩ := staysIn_bounds_iff.1 (staysIn_edited hstart hes) m hm
  exact ⟨n, hn, hmem⟩

/-- Edits that bring no bounds along change no years. -/
theorem year_of_edited (hes : ∀ e ∈ es, e.bound? = none) :
    ∀ m ∈ (r.edited es).moments, ∃ n ∈ r.moments,
      (DateTime.ofInstant m.instant).year = (DateTime.ofInstant n.instant).year := by
  have hcoarsest (q : Precision) : Precision.year ≤ q := by cases q <;> decide
  have hstays : ∀ e ∈ es, e.StaysIn .year { i | ∃ n ∈ r.moments, n.instant = i } := by
    intro e he
    refine ⟨?_, fun q _ => hcoarsest q⟩
    intro b hb
    rw [hes e he] at hb
    cases hb
  intro m hm
  obtain ⟨n, hn, -, hfields⟩ := edited_in_period (fun m _ => hcoarsest m.precision) hstays m hm
  exact ⟨n, hn, (List.cons.inj hfields).1⟩

end Range

end

end DateSpan

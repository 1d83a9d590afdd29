import Mathlib.Data.List.Induction
import DateSpan.Proofs.Data
import DateSpan.Proofs.Grammar.Writing
import DateSpan.Proofs.Ordering

/-!
# What can be made

Ranges are made one after another, each from a text, from bytes, from a document or from
bounds, and bounds from instants, from texts or from the ranges made before. Any construction
may be refused. `Construction.store` holds what a sequence of constructions has made.

Whatever the sequence, the ranges in the store are `Sound`: their instants are in the calendar
and in order, so every moment has a date and no text resorts to bare milliseconds. Nor do
refusals resort to them: an error of ordering is `Genuine`. And the constructions refuse no more
than they must: bare data that are sound make a range (`make_ofData_iff`, `make_cellBytes_iff`).
-/

namespace DateSpan

open Grammar

/-! ## Constructions -/

/-- Where a bound is taken from. -/
inductive BoundSource where
  | unbounded
  /-- The instant as it is. -/
  | exact (instant : Int) (p : Precision)
  | lower (instant : Int) (p : Precision)
  | upper (instant : Int) (p : Precision)
  | text (edge : Edge) (source : String)
  /-- The lower bound of a range in the store, by its place there. -/
  | lowerOf (place : Nat)
  /-- The upper bound of a range in the store. -/
  | upperOf (place : Nat)

/-- A way to make a range. -/
inductive Construction where
  | text (source : String)
  /-- A cell in writing, which may be null. -/
  | cellText (source : Option String)
  /-- The bytes of a cell, which may be null. -/
  | cellBytes (bytes : Option (List UInt8))
  | json (document : String)
  | single (bound : BoundSource)
  | between (lower upper : BoundSource)

/-- Why a construction makes nothing. -/
inductive Refusal where
  | error (e : Error)
  | document (fault : DocumentFault)
  /-- The store has no such bound. -/
  | absent

/-- The error of a refusal. A document is refused for the error in its text, if it has one. -/
def Refusal.error? : Refusal → Option Error
  | error e => some e
  | document (.range e) => some e
  | document (.document _) => none
  | absent => none

/-- The bound, given the ranges in the store. -/
def BoundSource.make (store : List Range) : BoundSource → Except Refusal Bound
  | unbounded => .ok .unbounded
  | exact instant p => (Bound.exact instant p).mapError .error
  | lower instant p => (Bound.lower instant p).mapError .error
  | upper instant p => (Bound.upper instant p).mapError .error
  | text edge source => (Bound.parse edge source).mapError .error
  | lowerOf place => (store[place]?.map Range.lower).elim (.error .absent) .ok
  | upperOf place => (store[place]?.bind Range.upper?).elim (.error .absent) .ok

namespace Construction

/-- The range that is made, given the ranges in the store; `none` is the null value. -/
def make (store : List Range) : Construction → Except Refusal (Option Range)
  | text source => ((Range.parse source).map some).mapError .error
  | cellText source => (Cell.parse source).mapError .error
  | cellBytes bytes => (Cell.deserialize bytes).mapError .error
  | json document => ((Range.ofJson document).map some).mapError .document
  | single bound => return some (.single (← bound.make store))
  | between lower upper => do
    let lower ← lower.make store
    let upper ← upper.make store
    ((Range.ofBounds lower upper).map some).mapError .error

/-- The store after a construction: with the range that was made, if one was. -/
def extend (store : List Range) (c : Construction) : List Range :=
  match c.make store with
  | .ok (some r) => store ++ [r]
  | .ok none => store
  | .error _ => store

/-- The store after a sequence of constructions. -/
def store (cs : List Construction) : List Range := cs.foldl extend []

/-! ## Runs -/

theorem mem_extend_iff {s : List Range} {c : Construction} {r : Range} :
    r ∈ extend s c ↔ r ∈ s ∨ c.make s = .ok (some r) := by
  rw [extend]
  split
  · next r' h => simp [h, eq_comm]
  · next h => simp [h]
  · next h => simp [h]

theorem store_concat (cs : List Construction) (c : Construction) :
    store (cs ++ [c]) = extend (store cs) c := by
  rw [store, List.foldl_append]
  rfl

/-- What is in the store was made, from the store as it was then, and by no refused
construction. -/
theorem mem_store_iff {cs : List Construction} {r : Range} :
    r ∈ store cs ↔
      ∃ before c after, cs = before ++ c :: after ∧ c.make (store before) = .ok (some r) := by
  induction cs using List.reverseRecOn with
  | nil => simp [store]
  | append_singleton cs last ih =>
    rw [store_concat, mem_extend_iff, ih]
    constructor
    · intro h
      rcases h with ⟨before, c, after, rfl, h⟩ | h
      · exact ⟨before, c, after ++ [last], by simp, h⟩
      · exact ⟨cs, last, [], rfl, h⟩
    · intro h
      obtain ⟨before, c, after, heq, h⟩ := h
      -- The construction was one of the earlier ones or the last.
      rcases List.eq_nil_or_concat after with rfl | ⟨after, c', rfl⟩
      · obtain ⟨rfl, hc⟩ := List.append_inj' heq rfl
        cases hc
        exact Or.inr h
      · rw [List.concat_eq_append, ← List.cons_append, ← List.append_assoc] at heq
        obtain ⟨rfl, -⟩ := List.append_inj' heq rfl
        exact Or.inl ⟨before, c, after, rfl, h⟩

end Construction

/-! ## Soundness -/

/-- The text resorts to bare milliseconds somewhere. -/
def HasBareMillis (cs : List Char) : Prop := ∃ n, Numeral.signed n ++ ['m', 's'] <:+: cs

theorem Bound.not_hasBareMillis (b : Bound) : ¬ HasBareMillis b.text := by
  intro h
  obtain ⟨n, h⟩ := h
  have hmem : 'm' ∈ b.text := h.subset (by simp)
  exact absurd (isRangeChar_of_mem_text hmem) (by decide)

theorem Range.not_hasBareMillis (r : Range) : ¬ HasBareMillis r.text := by
  intro h
  obtain ⟨n, h⟩ := h
  have hmem : 'm' ∈ r.text := h.subset (by simp)
  exact absurd (isRangeChar_of_mem_text hmem) (by decide)

/-- What is promised of a range. -/
structure Range.Sound (r : Range) : Prop where
  data : r.data.Sound
  written : ∀ m ∈ r.moments, m.precision.write? m.instant = some m.text
  noBareMillis : ¬ HasBareMillis r.text

theorem Range.sound (r : Range) : r.Sound where
  data := r.sound_data
  written := fun m _ => m.write?_instant
  noBareMillis := r.not_hasBareMillis

/-! ## Refusals -/

/-- If the refusal is for an error of ordering, that error is genuine. -/
def Refusal.Genuine (refusal : Refusal) : Prop := ∀ e, refusal.error? = some e → e.Genuine

theorem Refusal.genuine_error {e : Error} (h : e.Genuine) : (Refusal.error e).Genuine := by
  intro _ h
  cases h
  exact h

theorem BoundSource.raises_make (store : List Range) (b : BoundSource) :
    Raises Refusal.Genuine (b.make store) := by
  have habsent (found : Option Bound) :
      Raises Refusal.Genuine (found.elim (.error .absent) .ok) := by
    rcases found with _ | b
    · exact raises_error nofun
    · exact raises_ok b
  have herror {x : Except Error Bound} (hx : Raises Error.Genuine x) :
      Raises Refusal.Genuine (x.mapError Refusal.error) :=
    hx.mapError fun _ => Refusal.genuine_error
  cases b with
  | unbounded => exact raises_ok _
  | exact i p => exact herror (Bound.raises_exact i p)
  | lower i p => exact herror (Bound.raises_exact _ p)
  | upper i p => exact herror (Bound.raises_exact _ p)
  | text edge source => exact herror (Bound.raises_parse edge source)
  | lowerOf place => exact habsent _
  | upperOf place => exact habsent _

theorem Construction.raises_make (store : List Range) (c : Construction) :
    Raises Refusal.Genuine (c.make store) := by
  cases c with
  | text source => exact (Range.raises_parse source).map.mapError fun _ => Refusal.genuine_error
  | cellText source => exact (Cell.raises_parse source).mapError fun _ => Refusal.genuine_error
  | cellBytes bytes => exact (Cell.raises_deserialize bytes).mapError fun _ => Refusal.genuine_error
  | json document =>
    refine (Range.raises_ofJson document).map.mapError ?_
    intro fault hfault e he
    rcases fault with fault | e'
    · cases he
    · cases he
      exact hfault e rfl
  | single b =>
    apply (b.raises_make store).bind
    intro b
    exact raises_ok _
  | between l u =>
    apply (l.raises_make store).bind
    intro l
    apply (u.raises_make store).bind
    intro u
    exact (Range.raises_ofBounds l u).map.mapError fun _ => Refusal.genuine_error

/-! ## What is refused, and what is not

Moments and ranges cannot be built but in the calendar and in order. What this asks of those who
build them is seen on bare data: all that is not sound is refused, and nothing else. -/

/-- Rounding leads neither out of the calendar nor into it. -/
theorem Precision.inCalendar_round_iff {p : Precision} {edge : Edge} {i : Int} :
    InCalendar (p.round edge i) ↔ InCalendar i := by
  constructor
  · intro h
    -- An instant without a date stays as it is.
    by_contra hout
    rw [round_of_not_inCalendar hout] at h
    exact hout h
  · exact inCalendar_round

/-- A bound is made of the rounded instant, if the instant was in the calendar before. -/
theorem Bound.exact_round_eq_ok_iff {edge : Edge} {i : Int} {p : Precision} {b : Bound} :
    Bound.exact (p.round edge i) p = .ok b ↔
      InCalendar i ∧ b.data = some (p.round edge i, p) := by
  rw [exact_eq_ok_iff_data]
  refine ⟨?_, And.right⟩
  intro h
  have hin : InCalendar (p.round edge i) := b.inCalendar_data _ h
  exact ⟨Precision.inCalendar_round_iff.1 hin, h⟩

/-- The source of a bound with given data. -/
def BoundSource.ofData : BoundData → BoundSource
  | none => unbounded
  | some (i, p) => exact i p

theorem BoundSource.make_ofData_iff {store : List Range} {x : BoundData} {b : Bound} :
    (ofData x).make store = .ok b ↔ b.data = x := by
  rcases x with _ | ⟨i, p⟩
  · constructor
    · intro h
      cases h
      rfl
    · intro h
      rw [Bound.data_injective (show b.data = Bound.unbounded.data from h)]
      rfl
  · rw [ofData, make, mapError_eq_ok_iff, Bound.exact_eq_ok_iff_data]

namespace Construction

/-- The construction of a range from given data. -/
def ofData : Data → Construction
  | ⟨x, none⟩ => single (.ofData x)
  | ⟨x, some y⟩ => between (.ofData x) (.ofData y)

theorem make_ofData_iff {store : List Range} {d : Data} {r : Range} :
    (ofData d).make store = .ok (some r) ↔ r.data = d := by
  rcases d with ⟨x, _ | y⟩
  · constructor
    · intro h
      obtain ⟨b, hb, h⟩ := bind_eq_ok_iff.1 h
      cases h
      rw [← BoundSource.make_ofData_iff.1 hb]
      rfl
    · intro h
      rcases r with b | ⟨l, u, _⟩
      · obtain rfl : b.data = x := congrArg Data.lower h
        rw [ofData, make, BoundSource.make_ofData_iff.2 rfl]
        rfl
      · cases congrArg Data.upper h
  · constructor
    · intro h
      obtain ⟨l, hl, h⟩ := bind_eq_ok_iff.1 h
      obtain ⟨u, hu, h⟩ := bind_eq_ok_iff.1 h
      obtain ⟨r, hr, h⟩ := map_eq_ok_iff.1 (mapError_eq_ok_iff.1 h)
      cases h
      rw [← BoundSource.make_ofData_iff.1 hl, ← BoundSource.make_ofData_iff.1 hu]
      exact Range.ofBounds_eq_ok_iff_data.1 hr
    · intro h
      rcases r with b | ⟨l, u, hin⟩
      · cases congrArg Data.upper h
      · obtain rfl : l.data = x := congrArg Data.lower h
        obtain rfl : u.data = y := Option.some.inj (congrArg Data.upper h)
        rw [ofData, make, BoundSource.make_ofData_iff.2 rfl, ok_bind,
          BoundSource.make_ofData_iff.2 rfl, ok_bind, Range.ofBounds_eq_ok_iff.2 ⟨hin, rfl⟩]
        rfl

theorem make_cellBytes_iff {store : List Range} {d : Data} (hd : d.Fits) {r : Range} :
    (cellBytes (some d.bytes)).make store = .ok (some r) ↔ r.data = d := by
  rw [make, mapError_eq_ok_iff, Cell.deserialize_some_eq_ok_some_iff, ← Wire.decode_eq_ok_iff,
    Data.decode_bytes_iff hd]

/-- **What is made is sound, and only what is not sound is refused.** After any sequence of
constructions the store holds the ranges that were made, by no refused construction, and each
is in the calendar, in order, and written without bare milliseconds. If a construction is then
refused for inverted bounds, the texts in the error are the dates of these bounds. Bounds are
made of an instant, rounded or not, exactly if it is in the calendar. Bare data in the
constructors and in bytes make a range exactly if they are sound. -/
theorem sound_store (cs : List Construction) :
    (∀ r ∈ store cs, r.Sound) ∧
    (∀ r, r ∈ store cs ↔
      ∃ before c after, cs = before ++ c :: after ∧ c.make (store before) = .ok (some r)) ∧
    (∀ (c : Construction) (refusal : Refusal) (lower upper : String),
      c.make (store cs) = .error refusal → refusal.error? = some (.ordering lower upper) →
      (∃ l u : Moment, l.precision.write? l.instant = some lower.toList ∧
        u.precision.write? u.instant = some upper.toList ∧ u.instant < l.instant) ∧
      ¬ HasBareMillis lower.toList ∧ ¬ HasBareMillis upper.toList) ∧
    (∀ (i : Int) (p : Precision) (b : Bound),
      (Bound.exact i p = .ok b ↔ InCalendar i ∧ b.data = some (i, p)) ∧
      (Bound.lower i p = .ok b ↔ InCalendar i ∧ b.data = some (p.roundDown i, p)) ∧
      (Bound.upper i p = .ok b ↔ InCalendar i ∧ b.data = some (p.roundUp i, p))) ∧
    (∀ d : Data, (∃ r, (ofData d).make (store cs) = .ok (some r)) ↔ d.Sound) ∧
    (∀ d : Data, d.Fits →
      ((∃ r, (cellBytes (some d.bytes)).make (store cs) = .ok (some r)) ↔ d.Sound)) := by
  refine ⟨fun r _ => r.sound, fun r => mem_store_iff, ?_, ?_, ?_, ?_⟩
  · intro c refusal lower upper h he
    obtain ⟨l, u, hl, hu, hlt⟩ := c.raises_make _ refusal h _ he lower upper rfl
    refine ⟨⟨l, u, ?_, ?_, hlt⟩, ?_, ?_⟩
    · rw [hl, l.write?_instant]
    · rw [hu, u.write?_instant]
    · rw [hl]
      exact (Bound.bounded l).not_hasBareMillis
    · rw [hu]
      exact (Bound.bounded u).not_hasBareMillis
  · intro i p b
    refine ⟨?_, Bound.exact_round_eq_ok_iff, Bound.exact_round_eq_ok_iff⟩
    rw [Bound.exact_eq_ok_iff_data]
    refine ⟨?_, And.right⟩
    intro h
    exact ⟨b.inCalendar_data _ h, h⟩
  · intro d
    simp only [make_ofData_iff]
    exact Data.exists_range_iff
  · intro d hd
    simp only [make_cellBytes_iff hd]
    exact Data.exists_range_iff

/-- A bound taken from the store is refused an upper bound before it, in the words of the two. -/
theorem sound_store_inverted :
    ∃ l u : Moment, l.precision.write? l.instant = some "2001".toList ∧
      u.precision.write? u.instant = some "2000".toList ∧ u.instant < l.instant := by
  have hrefused : (between (.lowerOf 0) (.text .upper "2000")).make
      (store [text "[2001 TO 2002]"]) = .error (.error (.ordering "2001" "2000")) := by
    rfl
  exact ((sound_store _).2.2.1 _ _ _ _ hrefused rfl).1

end Construction

end DateSpan

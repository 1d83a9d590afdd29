import DateSpan.Proofs.RoundTrip.Bytes

/-!
# The data of a range

Of a bound there is to know its instant and its precision, or that it is open; of a range, one
or two bounds. As bare data these come with no proof that the instants are in the calendar or
in order. What is asked of data is `Data.Sound`, and exactly the sound data are those of a
range (`exists_range_iff`).

Before a range is there, its constructors and its decoder have to do with bare data. They
accept exactly the data of a range: `exact_eq_ok_iff_data`, `ofBounds_eq_ok_iff_data` and
`decode_bytes_iff`.
-/

namespace DateSpan

/-- The instant and the precision of a bound; nothing of an open one. -/
abbrev BoundData := Option (Int × Precision)

structure Data where
  lower : BoundData
  /-- The second bound, if there are two. -/
  upper : Option BoundData

def Bound.data : Bound → BoundData
  | unbounded => none
  | bounded m => some (m.instant, m.precision)

def Range.data (r : Range) : Data := ⟨r.lower.data, r.upper?.map Bound.data⟩

/-! ## Soundness -/

/-- The instants are in the calendar, and if there are two, in order. -/
structure Data.Sound (d : Data) : Prop where
  lower_inCalendar : ∀ x ∈ d.lower, InCalendar x.1
  upper_inCalendar : ∀ v ∈ d.upper, ∀ y ∈ v, InCalendar y.1
  inOrder : ∀ x ∈ d.lower, ∀ v ∈ d.upper, ∀ y ∈ v, x.1 ≤ y.1

theorem Bound.inCalendar_data (b : Bound) : ∀ x ∈ b.data, InCalendar x.1 := by
  intro x hx
  rcases b with _ | m
  · cases hx
  · cases hx
    exact m.inCalendar

theorem Bound.inOrder_iff_data {l u : Bound} :
    l.InOrder u ↔ ∀ x ∈ l.data, ∀ y ∈ u.data, x.1 ≤ y.1 := by
  rcases l with _ | m
  · simp [InOrder, data]
  · rcases u with _ | n
    · simp [InOrder, data]
    · simp [InOrder, data]

theorem Range.sound_data (r : Range) : r.data.Sound := by
  rcases r with b | ⟨l, u, h⟩
  · refine ⟨b.inCalendar_data, ?_, ?_⟩
    · intro v hv
      cases hv
    · intro x _ v hv
      cases hv
  · refine ⟨l.inCalendar_data, ?_, ?_⟩
    · intro v hv
      cases hv
      exact u.inCalendar_data
    · intro x hx v hv
      cases hv
      exact Bound.inOrder_iff_data.1 h x hx

theorem Bound.exists_data_eq {x : BoundData} (h : ∀ y ∈ x, InCalendar y.1) :
    ∃ b : Bound, b.data = x := by
  rcases x with _ | ⟨i, p⟩
  · exact ⟨.unbounded, rfl⟩
  · exact ⟨.bounded ⟨i, p, h (i, p) rfl⟩, rfl⟩

/-- **Exactly the sound data are those of a range.** -/
theorem Data.exists_range_iff {d : Data} : (∃ r : Range, r.data = d) ↔ d.Sound := by
  constructor
  · intro h
    obtain ⟨r, rfl⟩ := h
    exact r.sound_data
  · intro h
    rcases d with ⟨x, _ | y⟩
    · obtain ⟨b, rfl⟩ := Bound.exists_data_eq h.lower_inCalendar
      exact ⟨.single b, rfl⟩
    · obtain ⟨l, rfl⟩ := Bound.exists_data_eq h.lower_inCalendar
      obtain ⟨u, rfl⟩ := Bound.exists_data_eq (h.upper_inCalendar y rfl)
      have hin : l.InOrder u := Bound.inOrder_iff_data.2 fun x hx => h.inOrder x hx _ rfl
      exact ⟨.between l u hin, rfl⟩

theorem Bound.data_injective {b b' : Bound} (h : b.data = b'.data) : b = b' := by
  rcases b with _ | ⟨i, p, _⟩ <;> rcases b' with _ | ⟨i', p', _⟩ <;> simp_all [data]

/-! ## Constructors -/

theorem Bound.exact_eq_ok_iff_data {i : Int} {p : Precision} {b : Bound} :
    Bound.exact i p = .ok b ↔ b.data = some (i, p) := by
  rw [exact_eq_ok_iff]
  constructor
  · intro h
    obtain ⟨_, rfl⟩ := h
    rfl
  · intro h
    have hin : InCalendar i := b.inCalendar_data (i, p) h
    exact ⟨hin, data_injective h⟩

theorem Range.ofBounds_eq_ok_iff_data {l u : Bound} {r : Range} :
    ofBounds l u = .ok r ↔ r.data = ⟨l.data, some u.data⟩ := by
  rw [ofBounds_eq_ok_iff]
  constructor
  · intro h
    obtain ⟨_, rfl⟩ := h
    rfl
  · intro h
    rcases r with b | ⟨l', u', h'⟩
    · simp [data, upper?] at h
    · simp only [data, lower, upper?, Option.map_some, Data.mk.injEq, Option.some.injEq] at h
      obtain rfl := Bound.data_injective h.1
      obtain rfl := Bound.data_injective h.2
      exact ⟨h', rfl⟩

/-! ## Bytes -/

namespace Data

/-- Which of the bounds are concrete. -/
def layout : Data → Layout
  | ⟨none, none⟩ => .singleUnbounded
  | ⟨some _, none⟩ => .singleBounded
  | ⟨none, some none⟩ => .bothOpen
  | ⟨none, some (some _)⟩ => .openLow
  | ⟨some _, some none⟩ => .openHigh
  | ⟨some _, some (some _)⟩ => .closed

def boundBytes : BoundData → List UInt8
  | none => []
  | some (i, p) => Wire.Int64.toBytes i ++ [p.tag]

/-- The bytes that would encode the data, sound or not. -/
def bytes (d : Data) : List UInt8 :=
  d.layout.tag :: (boundBytes d.lower ++ (d.upper.elim [] boundBytes))

/-- An integer of 64 bits. -/
def IsWord (i : Int) : Prop := -0x8000000000000000 ≤ i ∧ i < 0x8000000000000000

def Fits (d : Data) : Prop := (∀ x ∈ d.lower, IsWord x.1) ∧ ∀ v ∈ d.upper, ∀ y ∈ v, IsWord y.1

theorem isWord_of_inCalendar {i : Int} (h : InCalendar i) : IsWord i := by
  obtain ⟨hl, hu⟩ := h
  unfold Calendar.earliest at hl
  unfold Calendar.latest at hu
  constructor <;> omega

theorem Sound.fits {d : Data} (h : d.Sound) : d.Fits := by
  constructor
  · intro x hx
    exact isWord_of_inCalendar (h.lower_inCalendar x hx)
  · intro v hv y hy
    exact isWord_of_inCalendar (h.upper_inCalendar v hv y hy)

/-- The bytes of concrete bounds tell them apart, whatever comes after. -/
theorem boundBytes_append_inj {x y : Int × Precision} {rest rest' : List UInt8}
    (hx : IsWord x.1) (hy : IsWord y.1)
    (h : boundBytes (some x) ++ rest = boundBytes (some y) ++ rest') : x = y ∧ rest = rest' := by
  obtain ⟨hmoment, hrest⟩ := List.append_inj h (by simp [boundBytes])
  obtain ⟨hword, htag⟩ := List.append_inj hmoment (by simp)
  have hinstant := Wire.Int64.ofBytes_toBytes hx.1 hx.2
  rw [hword, Wire.Int64.ofBytes_toBytes hy.1 hy.2] at hinstant
  have hprecision := Precision.ofTag_tag x.2
  rw [List.singleton_inj.1 htag, Precision.ofTag_tag] at hprecision
  exact ⟨Prod.ext hinstant.symm (Except.ok.inj hprecision).symm, hrest⟩

theorem boundBytes_inj {x y : Int × Precision} (hx : IsWord x.1) (hy : IsWord y.1)
    (h : boundBytes (some x) = boundBytes (some y)) : x = y := by
  have happend : boundBytes (some x) ++ [] = boundBytes (some y) ++ [] := by rw [h]
  exact (boundBytes_append_inj hx hy happend).1

/-- The tag tells how many bounds there are and which of them are concrete, so that the rest can
be told apart bound by bound. -/
theorem bytes_injective {d e : Data} (hd : d.Fits) (he : e.Fits) (h : d.bytes = e.bytes) :
    d = e := by
  obtain ⟨htag, hbody⟩ := List.cons.inj h
  have hlayout := Layout.ofTag_tag d.layout
  rw [htag, Layout.ofTag_tag] at hlayout
  rcases d with ⟨_ | x, _ | _ | y⟩ <;> rcases e with ⟨_ | x', _ | _ | y'⟩ <;>
    simp only [layout, Except.ok.injEq, reduceCtorEq] at hlayout
  · rfl
  · rfl
  · have hy := boundBytes_inj (hd.2 _ rfl _ rfl) (he.2 _ rfl _ rfl) hbody
    rw [hy]
  · obtain ⟨hx, -⟩ := boundBytes_append_inj (hd.1 _ rfl) (he.1 _ rfl) hbody
    rw [hx]
  · obtain ⟨hx, -⟩ := boundBytes_append_inj (hd.1 _ rfl) (he.1 _ rfl) hbody
    rw [hx]
  · obtain ⟨hx, hrest⟩ := boundBytes_append_inj (hd.1 _ rfl) (he.1 _ rfl) hbody
    have hy := boundBytes_inj (hd.2 _ rfl _ rfl) (he.2 _ rfl _ rfl) hrest
    rw [hx, hy]

end Data

theorem Range.bytes_data (r : Range) : r.data.bytes = Wire.encode r := by
  rcases r with (_ | m) | ⟨_ | m, _ | n, _⟩
  · rfl
  · rw [Wire.encode, Wire.encodeBounds, ← List.append_nil (Wire.encodeBound _)]
    rfl
  · rfl
  · rfl
  · rfl
  · rfl

/-- **The decoder accepts exactly the data of a range**, and makes that range of them. -/
theorem Data.decode_bytes_iff {d : Data} (hd : d.Fits) {r : Range} :
    Wire.decode d.bytes = .ok r ↔ r.data = d := by
  rw [Wire.decode_eq_ok_iff, ← Range.bytes_data]
  constructor
  · intro h
    exact (bytes_injective hd r.sound_data.fits h).symm
  · intro h
    rw [h]

end DateSpan

import DateSpan.Column
import DateSpan.Proofs.Grammar.Direct
import DateSpan.Range.Json

/-!
# What an error of ordering says

An error of ordering gives two bounds in writing. They are the dates of two moments, the first
of which is after the second, in whatever way the error came about: it is `Genuine`.

Ranges are made by reading texts, bytes and documents. Each of these takes several steps in
sequence, and only the last of them, `Range.ofBounds`, compares bounds. So the proofs follow
the steps: `Raises` says that all errors of a step satisfy a condition, and `Raises.bind` puts
steps together.
-/

namespace DateSpan

/-! ## Conditions on what is raised -/

/-- Every error that a computation can end in satisfies the condition. -/
def Raises {ε α : Type} (P : ε → Prop) (x : Except ε α) : Prop := ∀ e, x = .error e → P e

section Raises

variable {ε α β : Type} {P : ε → Prop}

theorem raises_ok (a : α) : Raises P (.ok a : Except ε α) := by
  intro e h
  cases h

theorem raises_error {e : ε} (h : P e) : Raises P (.error e : Except ε α) := by
  intro _ h
  cases h
  exact h

theorem Raises.bind {x : Except ε α} {f : α → Except ε β} (hx : Raises P x)
    (hf : ∀ a, Raises P (f a)) : Raises P (x >>= f) := by
  cases x with
  | ok a => exact hf a
  | error e => exact raises_error (hx e rfl)

theorem Raises.map {x : Except ε α} {f : α → β} (hx : Raises P x) : Raises P (x.map f) := by
  cases x with
  | ok a => exact raises_ok (f a)
  | error e => exact raises_error (hx e rfl)

theorem Raises.mapError {δ : Type} {Q : δ → Prop} {x : Except ε α} {f : ε → δ} (hx : Raises P x)
    (hf : ∀ e, P e → Q (f e)) : Raises Q (x.mapError f) := by
  cases x with
  | ok a => exact raises_ok a
  | error e => exact raises_error (hf e (hx e rfl))

end Raises

/-! ## Genuine errors -/

/-- If the error is one of ordering, its texts are those of two moments that are inverted. -/
def Error.Genuine (e : Error) : Prop :=
  ∀ lower upper, e = .ordering lower upper → ∃ l u : Moment,
    lower.toList = l.text ∧ upper.toList = u.text ∧ u.instant < l.instant

theorem Bound.raises_exact (i : Int) (p : Precision) : Raises Error.Genuine (exact i p) := by
  rw [exact]
  split
  · exact raises_ok _
  · exact raises_error (by simp [Error.Genuine])

theorem Bound.raises_parse (edge : Edge) (text : String) :
    Raises Error.Genuine (Bound.parse edge text) := by
  rw [Bound.parse]
  split
  · exact raises_ok _
  · split
    · exact raises_exact _ _
    · next e h =>
      obtain ⟨-, rfl⟩ := Precision.parse_eq_error_iff.1 h
      exact raises_error (by simp [Error.Genuine])

namespace Range

/-- The only place where bounds are compared. -/
theorem raises_ofBounds (lower upper : Bound) : Raises Error.Genuine (ofBounds lower upper) := by
  intro _ h
  obtain ⟨l, u, -, -, hlt, rfl⟩ := ofBounds_eq_error_iff.1 h
  intro _ _ he
  cases he
  exact ⟨l, u, String.toList_ofList, String.toList_ofList, hlt⟩

theorem raises_parseBound (source : String) (offset : Nat) (edge : Edge) (cs : List Char) :
    Raises Error.Genuine (parseBound source offset edge cs) := by
  rw [parseBound]
  split
  · exact raises_ok _
  · exact raises_error (by simp [Error.Genuine])

theorem raises_parse (source : String) : Raises Error.Genuine (Range.parse source) := by
  rw [parse_eq, parseDirect]
  split
  · rw [parseBrackets]
    split
    · exact raises_error (by simp [Error.Genuine])
    · split
      · exact raises_error (by simp [Error.Genuine])
      · apply (raises_parseBound _ _ _ _).bind
        intro l
        apply (raises_parseBound _ _ _ _).bind
        intro u
        exact raises_ofBounds l u
  · apply (raises_parseBound _ _ _ _).bind
    intro b
    exact raises_ok _

/-- A document that begins with a text of inverted bounds tells of them as the text does. -/
theorem raises_ofJson (document : String) :
    Raises (fun fault => ∀ e, fault = .range e → e.Genuine) (ofJson document) := by
  rw [ofJson]
  split
  · exact raises_error (by simp [Error.Genuine])
  · next cs after _ =>
    split
    · next e he =>
      apply raises_error
      intro _ h
      cases h
      exact raises_parse _ e he
    · split
      · exact raises_ok _
      · exact raises_error (by simp [Error.Genuine])

end Range

namespace Wire

theorem raises_takeBound (bytes : List UInt8) : Raises Error.Genuine (takeBound bytes) := by
  rw [takeBound]
  split
  · exact raises_error (by simp [Error.Genuine])
  · next tag rest _ =>
    have htag : Raises Error.Genuine (Precision.ofTag tag) := by
      rw [Precision.ofTag]
      split
      · exact raises_ok _
      · exact raises_error (by simp [Error.Genuine])
    apply htag.bind
    intro p
    apply (Bound.raises_exact _ p).bind
    intro b
    exact raises_ok _

theorem raises_decodeBounds (l : Layout) (bytes : List UInt8) :
    Raises Error.Genuine (decodeBounds l bytes) := by
  cases l with
  | singleBounded => exact (raises_takeBound _).bind fun _ => raises_ok _
  | closed =>
    apply (raises_takeBound _).bind
    intro ⟨l, rest⟩
    apply (raises_takeBound rest).bind
    intro ⟨u, _⟩
    exact Range.raises_ofBounds l u
  | openHigh => exact (raises_takeBound _).bind fun _ => Range.raises_ofBounds _ _
  | openLow => exact (raises_takeBound _).bind fun _ => Range.raises_ofBounds _ _
  | bothOpen => exact Range.raises_ofBounds _ _
  | singleUnbounded => exact raises_ok _

theorem raises_decode (bytes : List UInt8) : Raises Error.Genuine (decode bytes) := by
  rcases bytes with _ | ⟨tag, body⟩
  · exact raises_error (by simp [Error.Genuine])
  · have htag : Raises Error.Genuine (Layout.ofTag tag) := by
      rw [Layout.ofTag]
      split
      · exact raises_ok _
      · exact raises_error (by simp [Error.Genuine])
    apply htag.bind
    intro l
    split
    · exact raises_error (by simp [Error.Genuine])
    · split
      · exact raises_error (by simp [Error.Genuine])
      · exact raises_decodeBounds l body

end Wire

namespace Cell

theorem raises_parse (source : Option String) : Raises Error.Genuine (Cell.parse source) := by
  rw [Cell.parse.eq_def]
  split
  · exact raises_ok _
  · split
    · exact raises_ok _
    · exact (Range.raises_parse _).map

theorem raises_deserialize (bytes : Option (List UInt8)) :
    Raises Error.Genuine (Cell.deserialize bytes) := by
  rw [Cell.deserialize.eq_def]
  split
  · exact raises_ok _
  · exact raises_ok _
  · exact (Wire.raises_decode _).map

end Cell

end DateSpan

import DateSpan.Bound

/-!
# Ranges

A range is a single bound, which stands for the period it names, or everything
between a lower and an upper bound, both included. Its bounds are in order, by
construction.

Ranges are compared by structure: `*` and `[* TO *]` are different ranges, and so
are `[2001 TO 2002]` and `[2001-01 TO 2002-12]`.
-/

namespace DateSpan

inductive Range where
  /-- The period of one bound. -/
  | single (bound : Bound)
  | between (lower upper : Bound) (inOrder : lower.InOrder upper)
deriving DecidableEq

namespace Range

/-- The lower bound, or the only one. -/
def lower : Range → Bound
  | single bound => bound
  | between lower _ _ => lower

/-- The upper bound, if there are two. -/
def upper? : Range → Option Bound
  | single _ => none
  | between _ upper _ => some upper

def isSingle : Range → Bool
  | single _ => true
  | between _ _ _ => false

/-- The concrete bounds of the range. -/
def moments (r : Range) : List Moment :=
  r.lower.moment?.toList ++ (r.upper?.bind Bound.moment?).toList

/-- The range between two bounds, provided that they are in order. -/
def ofBounds (lower upper : Bound) : Except Error Range :=
  if h : lower.InOrder upper then .ok (between lower upper h)
  else .error (.ordering (String.ofList lower.text) (String.ofList upper.text))

theorem ofBounds_eq_ok_iff {lower upper : Bound} {r : Range} :
    ofBounds lower upper = .ok r ↔ ∃ h : lower.InOrder upper, r = between lower upper h := by
  rw [ofBounds]
  split
  · next h => simp [h, eq_comm]
  · next h => simp [h]

/-- Two bounds are refused only if both are moments, in the wrong order. -/
theorem ofBounds_eq_error_iff {lower upper : Bound} {e : Error} :
    ofBounds lower upper = .error e ↔ ∃ l u : Moment, lower = .bounded l ∧ upper = .bounded u ∧
      u.instant < l.instant ∧ e = .ordering (String.ofList l.text) (String.ofList u.text) := by
  constructor
  · intro h
    rw [ofBounds] at h
    split at h
    · cases h
    · next hinv =>
      cases h
      rcases lower with _ | l
      · exact absurd trivial hinv
      · rcases upper with _ | u
        · exact absurd trivial hinv
        · exact ⟨l, u, rfl, rfl, Int.not_le.1 hinv, rfl⟩
  · intro h
    obtain ⟨l, u, rfl, rfl, hlt, rfl⟩ := h
    exact dif_neg (Int.not_le.2 hlt)

end Range

end DateSpan

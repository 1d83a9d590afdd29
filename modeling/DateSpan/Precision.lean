import DateSpan.Error
import DateSpan.Text.Letter

/-!
# Precisions

A precision is the finest calendar field that an instant is meant to. Precisions
are ordered from coarse to fine, so `year` is the least.
-/

namespace DateSpan

inductive Precision where
  | year
  | month
  | day
  | hour
  | minute
  | second
  | millisecond
deriving DecidableEq, Repr

namespace Precision

/-- The place in the order from coarse to fine, counted from `0`. -/
def rank : Precision → Nat
  | year => 0
  | month => 1
  | day => 2
  | hour => 3
  | minute => 4
  | second => 5
  | millisecond => 6

instance : LE Precision := ⟨fun p q => p.rank ≤ q.rank⟩
instance : LT Precision := ⟨fun p q => p.rank < q.rank⟩
instance (p q : Precision) : Decidable (p ≤ q) := inferInstanceAs (Decidable (p.rank ≤ q.rank))
instance (p q : Precision) : Decidable (p < q) := inferInstanceAs (Decidable (p.rank < q.rank))
instance : Ord Precision := ⟨fun p q => compare p.rank q.rank⟩

theorem le_def {p q : Precision} : p ≤ q ↔ p.rank ≤ q.rank := Iff.rfl

theorem rank_inj {p q : Precision} : p.rank = q.rank ↔ p = q := by
  cases p <;> cases q <;> decide

/-- All precisions, finest first: the order in which a text is tried. -/
def all : List Precision := [millisecond, second, minute, hour, day, month, year]

theorem mem_all (p : Precision) : p ∈ all := by cases p <;> decide

/-- The byte that stands for a precision in an encoding. -/
def tag : Precision → UInt8
  | year => 0
  | month => 1
  | day => 2
  | hour => 3
  | minute => 4
  | second => 5
  | millisecond => 6

def name : Precision → String
  | year => "YEAR"
  | month => "MONTH"
  | day => "DAY"
  | hour => "HOUR"
  | minute => "MINUTE"
  | second => "SECOND"
  | millisecond => "MILLISECOND"

def ofTag (tag : UInt8) : Except Error Precision :=
  match all.find? fun p => p.tag == tag with
  | some p => .ok p
  | none => .error (.invalidArgument (.unknownPrecisionTag tag))

/-- The precision of a name, in letters of either case. -/
def ofName (name : String) : Except Error Precision :=
  match all.find? fun p => Letter.sameName p.name name with
  | some p => .ok p
  | none => .error (.invalidArgument (.unknownPrecision name))

@[simp] theorem ofTag_tag (p : Precision) : ofTag p.tag = .ok p := by cases p <;> rfl

theorem tag_eq_of_ofTag {tag : UInt8} {p : Precision} (h : ofTag tag = .ok p) : p.tag = tag := by
  unfold ofTag at h
  split at h
  · next q hq =>
    cases h
    exact beq_iff_eq.1 (List.find?_some (p := fun p : Precision => p.tag == tag) hq)
  · cases h

@[simp] theorem ofName_name (p : Precision) : ofName p.name = .ok p := by cases p <;> rfl

end Precision

/-- The side of a range that a bound is on. It decides which end of a period an
instant is moved to. -/
inductive Edge where
  | lower
  | upper
deriving DecidableEq, Repr

end DateSpan

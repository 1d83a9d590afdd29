import DateSpan.Range.Json
import DateSpan.Wire

/-!
# Making ranges from ranges

The edits of a range: sending it through one of its forms and back, choosing and
replacing its bounds, and making it anew at another precision. Where an edit needs an
upper bound and the range has one bound only, that bound serves as both.
-/

namespace DateSpan

inductive Edit where
  | viaText
  | viaBytes
  | viaJson
  | onlyLower
  | onlyUpper
  /-- Both bounds, as two. -/
  | both
  | swap
  | openLow
  | openHigh
  | setLower (bound : Bound)
  | setUpper (bound : Bound)
  /-- Each bound moved outward to the end of its period. -/
  | widen (p : Precision)
  /-- Each bound moved inward to the other end of its period. -/
  | narrow (p : Precision)
  /-- The same instants at another precision. -/
  | relabel (p : Precision)

namespace Range

/-- The upper bound, or the only one. -/
def upper : Range → Bound
  | single bound => bound
  | between _ upper _ => upper

/-- A bound made anew at another precision; an open one stays open. -/
def remake (make : Int → Precision → Except Error Bound) (p : Precision) :
    Bound → Except Error Bound
  | .unbounded => .ok .unbounded
  | .bounded m => make m.instant p

/-- A range made anew at another precision, its bounds each in their own way. -/
def rebuild (makeLower makeUpper : Int → Precision → Except Error Bound) (p : Precision) :
    Range → Except Error Range
  | single bound => return single (← remake makeLower p bound)
  | between lower upper _ => do
    let lower ← remake makeLower p lower
    let upper ← remake makeUpper p upper
    ofBounds lower upper

/-- The range with its bounds moved outward to the ends of their periods. -/
def widen (p : Precision) (r : Range) : Except Error Range := r.rebuild Bound.lower Bound.upper p

/-- The range with its bounds moved inward to the ends of their periods. -/
def narrow (p : Precision) (r : Range) : Except Error Range := r.rebuild Bound.upper Bound.lower p

/-- The range with its instants as they are. -/
def relabel (p : Precision) (r : Range) : Except Error Range := r.rebuild Bound.exact Bound.exact p

end Range

inductive EditFault where
  | error (e : Error)
  | document (fault : DocumentFault)
deriving DecidableEq, Repr

namespace Edit

def apply (r : Range) : Edit → Except EditFault Range
  | viaText => (Range.parse (toString r)).mapError .error
  | viaBytes => (Wire.decode (Wire.encode r)).mapError .error
  | viaJson => (Range.ofJson (String.ofList r.toJson.write)).mapError .document
  | onlyLower => .ok (.single r.lower)
  | onlyUpper => .ok (.single r.upper)
  | both => (Range.ofBounds r.lower r.upper).mapError .error
  | swap => (Range.ofBounds r.upper r.lower).mapError .error
  | openLow => (Range.ofBounds .unbounded r.upper).mapError .error
  | openHigh => (Range.ofBounds r.lower .unbounded).mapError .error
  | setLower bound => (Range.ofBounds bound r.upper).mapError .error
  | setUpper bound => (Range.ofBounds r.lower bound).mapError .error
  | widen p => (r.widen p).mapError .error
  | narrow p => (r.narrow p).mapError .error
  | relabel p => (r.relabel p).mapError .error

end Edit

end DateSpan

import DateSpan.Stream.Fault
import DateSpan.Text.Quoted
import DateSpan.Text.Utf8

/-!
# Errors

An `Error` records why something was refused, as data. Its wording comes from
there: `Error.message` says what went wrong, `Error.cause?` what lay behind it,
`Error.describe` both, and `Error.diagnostic` puts the kind of the error in front.

Three of the six kinds gather several reasons. Each of these has a `custom`
member, for a reason that a caller gives in words.
-/

namespace DateSpan

/-- What a reader was to take off a text. -/
inductive Wanted where
  | character (c : Char)
  /-- A text given beforehand. -/
  | tag
  /-- What comes before a text given beforehand. -/
  | upTo
  /-- So many characters, or the end. -/
  | extent
deriving DecidableEq, Repr

/-- What is wrong with a text that is no range or no bound. -/
inductive GrammarFault where
  /-- The text is not in the form of any precision. -/
  | unmatched
  /-- A bound within the text is not in the form of any precision. -/
  | unmatchedBound (bound : String)
  /-- The text begins with a bracket and ends without one. -/
  | missingBracket
  | missingSeparator
  /-- A reader did not find what it was to take off the text. -/
  | missing (wanted : Wanted)
  /-- A reader would have to know more of the text. -/
  | endOfInput
  | custom (message : String)
deriving DecidableEq, Repr

/-- What is wrong with a value that is outside its domain. -/
inductive ArgumentFault where
  | unknownPrecision (name : String)
  | unknownPrecisionTag (tag : UInt8)
  /-- No date of the calendar names the instant. -/
  | outsideCalendar (instant : Int)
  /-- An encoding is complete, and this many bytes follow it. -/
  | trailingBytes (count : Nat)
  | custom (message : String)
deriving DecidableEq, Repr

inductive Failure where
  | unknownEncoding (name : String)
  | malformedHex (text : String)
  | notUtf8 (fault : Utf8.Fault)
  | reader (fault : Stream.Fault)
  | writer (fault : Stream.Fault)
  | custom (message : String) (cause : Option String)
deriving DecidableEq, Repr

inductive Error where
  /-- The source is no range or bound; the fault lies at a byte offset into it. -/
  | grammar (source : String) (offset : Nat) (fault : GrammarFault)
  /-- The lower bound is after the upper bound; both are given in writing. -/
  | ordering (lower upper : String)
  /-- The first byte of an encoding announces no layout. -/
  | unknownTag (tag : UInt8)
  /-- An encoding is shorter than its layout. -/
  | truncated (expected actual : Nat)
  | invalidArgument (fault : ArgumentFault)
  | other (failure : Failure)
deriving DecidableEq, Repr

def Wanted.message : Wanted → String
  | .character c => s!"expected '{c}'"
  | .tag => "parse error Tag"
  | .upTo => "parse error TakeUntil"
  | .extent => "parse error Eof"

def GrammarFault.message : GrammarFault → String
  | .unmatched => "text matches no date precision pattern"
  | .unmatchedBound bound => s!"'{bound}' matches no date precision pattern"
  | .missingBracket => "missing closing bracket ']'"
  | .missingSeparator => "missing 'TO' separator"
  | .missing wanted => wanted.message
  | .endOfInput => "unexpected end of input"
  | .custom message => message

def ArgumentFault.message : ArgumentFault → String
  | .unknownPrecision name => s!"unknown precision '{name}'"
  | .unknownPrecisionTag tag => s!"invalid precision tag {tag.toNat}"
  | .outsideCalendar instant => s!"timestamp {instant} is outside the supported calendar range"
  | .trailingBytes count => s!"{count} unexpected trailing bytes after date range encoding"
  | .custom message => message

namespace Failure

def message : Failure → String
  | .unknownEncoding name => s!"unknown output encoding '{name}'"
  | .malformedHex text => s!"malformed hex string '{text}'"
  | .notUtf8 _ => "line is not valid UTF-8"
  | .reader _ => "reader failed"
  | .writer _ => "writer failed"
  | .custom message _ => message

def cause? : Failure → Option String
  | .notUtf8 fault => some fault.message
  | .reader fault | .writer fault => some fault.message
  | .custom _ cause => cause
  | .unknownEncoding _ | .malformedHex _ => none

end Failure

namespace Error

def message : Error → String
  | .grammar source offset fault =>
    s!"cannot parse date range '{source}' at offset {offset}: {fault.message}"
  | .ordering lower upper =>
    s!"lower bound of a date range must not be after its upper bound, got [{lower} TO {upper}]"
  | .unknownTag tag => s!"unknown date range type tag {tag.toNat}"
  | .truncated expected actual =>
    s!"date range encoding too short: expected {expected} bytes, got {actual}"
  | .invalidArgument fault => fault.message
  | .other failure => failure.message

/-- What lay behind the error, if it came from elsewhere. -/
def cause? : Error → Option String
  | .other failure => failure.cause?
  | _ => none

/-- Where in the source the fault lies, for an error of grammar. -/
def offset? : Error → Option Nat
  | .grammar _ offset _ => some offset
  | _ => none

def describe (e : Error) : String :=
  match e.cause? with
  | some cause => s!"{e.message}. Source error: {cause}"
  | none => e.message

/-- The kind of the error, with the values that belong to the kind. -/
def kindText : Error → String
  | .grammar source offset _ =>
    s!"Grammar \x7b source: {Quoted.quote source}, offset: {offset} \x7d"
  | .ordering lower upper =>
    s!"Ordering \x7b lower: {Quoted.quote lower}, upper: {Quoted.quote upper} \x7d"
  | .unknownTag tag => s!"UnknownTag({tag.toNat})"
  | .truncated expected actual =>
    s!"Truncated \x7b expected: {expected}, actual: {actual} \x7d"
  | .invalidArgument _ => "InvalidArgument"
  | .other _ => "Other"

/-- The error as a program reports it when it ends on it. -/
def diagnostic (e : Error) : String := s!"{e.kindText}: {e.describe}"

end Error

/-! ## Results in sequence -/

@[simp] theorem ok_bind {ε α β : Type} (a : α) (f : α → Except ε β) : (Except.ok a >>= f) = f a :=
  rfl

@[simp] theorem error_bind {ε α β : Type} (e : ε) (f : α → Except ε β) :
    (Except.error e >>= f) = .error e := rfl

/-- Results in sequence succeed if each of them does. -/
theorem bind_eq_ok_iff {ε α β : Type} {x : Except ε α} {f : α → Except ε β} {b : β} :
    (x >>= f) = .ok b ↔ ∃ a, x = .ok a ∧ f a = .ok b := by
  cases x with
  | ok a => simp
  | error e => simp

/-- Results in sequence fail with the first error there is. -/
theorem bind_eq_error_iff {ε α β : Type} {x : Except ε α} {f : α → Except ε β} {e : ε} :
    (x >>= f) = .error e ↔ x = .error e ∨ ∃ a, x = .ok a ∧ f a = .error e := by
  cases x with
  | ok a => simp
  | error e => simp

theorem map_eq_ok_iff {ε α β : Type} {x : Except ε α} {f : α → β} {b : β} :
    x.map f = .ok b ↔ ∃ a, x = .ok a ∧ f a = b := by
  cases x <;> simp [Except.map]

theorem mapError_eq_ok_iff {ε δ α : Type} {x : Except ε α} {f : ε → δ} {a : α} :
    x.mapError f = .ok a ↔ x = .ok a := by
  cases x with
  | ok a' =>
    show (Except.ok a' : Except δ α) = .ok a ↔ _
    simp
  | error e =>
    show (Except.error (f e) : Except δ α) = .ok a ↔ _
    simp

theorem mapError_eq_error_iff {ε δ α : Type} {x : Except ε α} {f : ε → δ} {d : δ} :
    x.mapError f = .error d ↔ ∃ e, x = .error e ∧ f e = d := by
  cases x with
  | ok a =>
    show (Except.ok a : Except δ α) = .error d ↔ _
    simp
  | error e =>
    show (Except.error (f e) : Except δ α) = .error d ↔ _
    simp

end DateSpan
